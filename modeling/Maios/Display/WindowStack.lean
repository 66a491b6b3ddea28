import Mathlib.Data.List.Nodup
import Maios.Library.Run

/-!
# The stack of windows

The window manager keeps the visible windows below the active one from back to front, the hidden
ones, and the active one, all by weak references. It exists only once the graphics provider does, so
that repainting, which is left out here, does not fail.

A window that was made active is in exactly one of the three places until it is deleted. The order of
the others is disturbed by one thing: when the active window is closed or hidden, the next one is
taken from the front of `show_list`, which is the bottom of the stack.

## Main results

* `window_in_one_place_and_stacked_iff` — both, in every state that calls lead to
-/

namespace Maios.Display

open List Option

/-- The identity of a window. -/
abbrev Window := ℕ

structure WindowManager where
  /-- Visible windows below the active one, back to front. -/
  showList : List Window
  hideList : List Window
  active : Option Window

namespace WindowManager

variable (alive : Window → Bool) (m : WindowManager) (w : Window)

/-- `purge_expired` -/
def purgeExpired : WindowManager :=
  { m with showList := m.showList.filter alive, hideList := m.hideList.filter alive }

/-- `pop_first_live` -/
def popFirstLive : List Window → Option Window × List Window
  | [] => (none, [])
  | w :: ws => if alive w then (some w, ws) else popFirstLive ws

/-- The active window, if it is alive. -/
def upgraded : Option Window := m.active.filter alive

/-- The active window becomes the topmost of the others, unless it is among them. -/
def demote : WindowManager :=
  match m.upgraded alive with
  | some current =>
    if current ∈ m.showList then m else { m with showList := m.showList ++ [current] }
  | none => m

/-- The next window becomes active. -/
def activateNext : WindowManager :=
  let r := popFirstLive alive m.showList
  { m with showList := r.2, active := r.1 }

/-- Put a window among the hidden ones, unless it is there. -/
def pushHidden : WindowManager :=
  if w ∈ m.hideList then m else { m with hideList := m.hideList ++ [w] }

/-- `set_active` of a live window -/
def setActive : WindowManager :=
  let m := m.purgeExpired alive
  if m.upgraded alive = some w then m
  else
    let m := m.demote alive
    { showList := m.showList.erase w, hideList := m.hideList.erase w, active := some w }

/-- `delete_window` of a live window -/
def deleteWindow : WindowManager :=
  let m := m.purgeExpired alive
  if m.upgraded alive = some w then m.activateNext alive
  else if w ∈ m.showList then { m with showList := m.showList.erase w }
  else { m with hideList := m.hideList.erase w }

/-- `hide_window` of a live window -/
def hideWindow : WindowManager :=
  let m := m.purgeExpired alive
  if m.upgraded alive = some w then (m.pushHidden w).activateNext alive
  else if w ∈ m.showList then { m with showList := m.showList.erase w }.pushHidden w
  else m

/-- `show_window` of a live window -/
def showWindow : WindowManager :=
  let m := m.purgeExpired alive
  if w ∈ m.hideList then
    let m := { m with hideList := m.hideList.erase w }
    if w ∈ m.showList then m else { m with showList := m.showList ++ [w] }
  else m

/-- The number of places where a window is. -/
def places : ℕ :=
  m.showList.count w + m.hideList.count w + (m.active.toList).count w

/-- The visible windows, back to front. -/
def visible : List Window := m.showList.filter alive ++ (m.upgraded alive).toList

end WindowManager

/-- The manager, the windows that are alive, and those that were made active and not deleted since. -/
structure Desktop where
  manager : WindowManager
  alive : Window → Bool
  placed : Window → Bool

/-- The calls on a live window, and that a window is dropped. -/
inductive WindowOp where
  | setActive (w : Window)
  | deleteWindow (w : Window)
  | hideWindow (w : Window)
  | showWindow (w : Window)
  | drop (w : Window)

def WindowOp.window : WindowOp → Window
  | setActive w | deleteWindow w | hideWindow w | showWindow w | drop w => w

namespace Desktop

def new : Desktop := ⟨⟨[], [], none⟩, fun _ => true, fun _ => false⟩

/-- The desktop after a step; a window that was dropped can not be passed to a call. -/
def step (s : Desktop) (op : WindowOp) : Desktop :=
  if s.alive op.window then
    match op with
    | .setActive w =>
      { s with manager := s.manager.setActive s.alive w, placed := Function.update s.placed w true }
    | .deleteWindow w =>
      { s with
        manager := s.manager.deleteWindow s.alive w
        placed := Function.update s.placed w false }
    | .hideWindow w => { s with manager := s.manager.hideWindow s.alive w }
    | .showWindow w => { s with manager := s.manager.showWindow s.alive w }
    | .drop w => { s with alive := Function.update s.alive w false }
  else s

/-- Every live window is in one place if it was made active and not deleted since, else in none. -/
def Placed (s : Desktop) : Prop :=
  ∀ w, s.alive w → s.manager.places w = if s.placed w then 1 else 0

/-- A step leaves the order of the other visible windows, and if it closes or hides the active window
then the topmost remaining one becomes active. -/
structure Stacked (s : Desktop) (op : WindowOp) : Prop where
  order : ((s.step op).manager.visible (s.step op).alive).filter (· ≠ op.window) =
    (s.manager.visible s.alive).filter (· ≠ op.window)
  next : ∀ w, op = .deleteWindow w ∨ op = .hideWindow w →
    s.manager.upgraded s.alive = some w →
    (s.step op).manager.active = ((s.manager.visible s.alive).filter (· ≠ w)).getLast?

/-- If the active window is closed or hidden, then it covers at most one other window. -/
def Uncovers (s : Desktop) : WindowOp → Prop
  | .deleteWindow w | .hideWindow w =>
    s.manager.upgraded s.alive = some w → (s.manager.showList.filter s.alive).length ≤ 1
  | _ => True

end Desktop

open WindowManager

section Places

variable {alive : Window → Bool} {m : WindowManager} {w u : Window}

theorem popFirstLive_of_live {l : List Window} (h : ∀ w ∈ l, alive w) :
    popFirstLive alive l = (l.head?, l.tail) := by
  cases l with
  | nil => rfl
  | cons w ws => simp [popFirstLive, h w mem_cons_self]

theorem activateNext_of_live (h : ∀ w ∈ m.showList, alive w) :
    m.activateNext alive = { m with showList := m.showList.tail, active := m.showList.head? } := by
  rw [activateNext, popFirstLive_of_live h]

theorem upgraded_eq_some : m.upgraded alive = some w ↔ m.active = some w ∧ alive w := by
  simp [upgraded]

/-- Purging keeps the live windows where they are. -/
theorem places_purgeExpired (hu : alive u) : (m.purgeExpired alive).places u = m.places u := by
  simp [places, purgeExpired, count_filter hu]

/-- A live window is upgraded if it is active. -/
theorem count_upgraded (hu : alive u) :
    (m.upgraded alive).toList.count u = m.active.toList.count u ∧
      m.active.toList.count u = if m.upgraded alive = some u then 1 else 0 := by
  rw [upgraded]
  cases m.active with
  | none => simp
  | some a => by_cases ha : alive a <;> grind

/-- No live window is in two places. -/
def Once (alive : Window → Bool) (m : WindowManager) : Prop := ∀ u, alive u → m.places u ≤ 1

/-- The active window leaves its place, and the next one changes places. -/
theorem places_activateNext (hlive : ∀ w ∈ m.showList, alive w) (hactive : m.active = some w) :
    (m.activateNext alive).places u + (if u = w then 1 else 0) = m.places u := by
  rw [activateNext_of_live hlive, places, places]
  have hcount : m.showList.head?.toList.count u + m.showList.tail.count u = m.showList.count u := by
    cases m.showList <;> grind
  grind

theorem live_purgeExpired : ∀ w ∈ (m.purgeExpired alive).showList, alive w :=
  fun _ hw => (mem_filter.mp hw).2

variable (h : Once alive m)

include h

theorem Once.purgeExpired : Once alive (m.purgeExpired alive) :=
  fun u hu => (places_purgeExpired hu).symm ▸ h u hu

/-- A live window that is in one place is not in another. -/
theorem Once.not_mem (hw : alive w) :
    (m.active = some w → w ∉ m.showList ∧ w ∉ m.hideList) ∧ (w ∈ m.showList → w ∉ m.hideList) := by
  have hone := h w hw
  rw [places] at hone
  simp only [← count_pos_iff]
  refine ⟨fun hactive => ?_, fun hshow => by omega⟩
  rw [hactive, toList_some, count_singleton_self] at hone
  omega

/-- The active window is not among the others, so that it is added to them. -/
theorem Once.demote :
    m.demote alive = { m with showList := m.showList ++ (m.upgraded alive).toList } := by
  rw [WindowManager.demote]
  cases hactive : m.upgraded alive with
  | none => simp
  | some current =>
    obtain ⟨heq, hlive⟩ := upgraded_eq_some.mp hactive
    simp [((h.not_mem hlive).1 heq).1]

theorem Once.setActive (hu : alive u) :
    (m.setActive alive w).places u = if u = w then 1 else m.places u := by
  have hone := h u hu
  rw [← places_purgeExpired (m := m) hu] at hone ⊢
  rw [WindowManager.setActive]
  rw [h.purgeExpired.demote]
  generalize m.purgeExpired alive = m at hone ⊢
  split_ifs with hactive hne hne
  · subst hne
    rw [places, (upgraded_eq_some.mp hactive).1, toList_some, count_singleton_self] at *
    omega
  · rfl
  · subst hne
    have hcount := count_upgraded (m := m) hu
    simp only [places, count_erase_self, count_append, toList_some,
      count_singleton_self] at hone ⊢
    omega
  · have hcount := count_upgraded (m := m) hu
    simp only [places] at hone ⊢
    grind

theorem Once.deleteWindow (hu : alive u) :
    (m.deleteWindow alive w).places u = if u = w then 0 else m.places u := by
  have hone := h u hu
  have hlive : ∀ w ∈ (m.purgeExpired alive).showList, alive w := live_purgeExpired
  rw [← places_purgeExpired (m := m) hu] at hone ⊢
  rw [WindowManager.deleteWindow]
  generalize m.purgeExpired alive = m at hone hlive ⊢
  by_cases hactive : m.upgraded alive = some w
  · have hnext := places_activateNext (u := u) hlive (upgraded_eq_some.mp hactive).1
    split_ifs at hnext ⊢ <;> omega
  have hcount := count_upgraded (m := m) hu
  split_ifs with hshow hne hne <;> simp only [places] at hone ⊢ <;> grind

theorem Once.hideWindow (hw : alive w) (hu : alive u) :
    (m.hideWindow alive w).places u = m.places u := by
  have hnot := h.purgeExpired.not_mem hw
  have hlive : ∀ w ∈ (m.purgeExpired alive).showList, alive w := live_purgeExpired
  rw [← places_purgeExpired (m := m) hu]
  rw [WindowManager.hideWindow]
  generalize m.purgeExpired alive = m at hnot hlive ⊢
  split_ifs with hactive hshow
  · have heq := (upgraded_eq_some.mp hactive).1
    have hnext := places_activateNext (u := u) (m := { m with hideList := m.hideList ++ [w] }) hlive
      heq
    rw [pushHidden]
    simp only [places] at hnext ⊢
    grind
  · rw [pushHidden]
    simp only [places]
    grind
  · rfl

theorem Once.showWindow (hw : alive w) (hu : alive u) :
    (m.showWindow alive w).places u = m.places u := by
  have hnot := h.purgeExpired.not_mem hw
  rw [← places_purgeExpired (m := m) hu]
  rw [WindowManager.showWindow]
  generalize m.purgeExpired alive = m at hnot ⊢
  by_cases hhide : w ∈ m.hideList
  · have hshow : w ∉ m.showList := fun hshow => hnot.2 hshow hhide
    simp only [places]
    grind
  · rw [if_neg hhide]

end Places

section Order

variable {alive : Window → Bool} {m : WindowManager} {w : Window}

/-- Taking a window out does not change the order of the others. -/
@[simp] theorem filter_ne_erase (l : List Window) (w : Window) :
    (l.erase w).filter (· ≠ w) = l.filter (· ≠ w) := by
  induction l with
  | nil => rfl
  | cons a l ih => by_cases h : a = w <;> simp_all

@[simp] theorem visible_purgeExpired : (m.purgeExpired alive).visible alive = m.visible alive := by
  simp [visible, purgeExpired, upgraded]

theorem visible_eq_filter : m.visible alive = (m.showList ++ m.active.toList).filter alive := by
  rw [visible, filter_append, upgraded]
  cases m.active with
  | none => rfl
  | some a => by_cases ha : alive a <;> simp [ha]

theorem filter_live (hlive : ∀ w ∈ m.showList, alive w) :
    m.visible alive = m.showList ++ (m.upgraded alive).toList := by
  rw [visible, filter_eq_self.mpr hlive]

theorem setActive_order (h : Once alive m) :
    ((m.setActive alive w).visible alive).filter (· ≠ w) = (m.visible alive).filter (· ≠ w) := by
  have hvisible : (m.purgeExpired alive).visible alive = m.visible alive := visible_purgeExpired
  have honce := h.purgeExpired
  have hlive : ∀ w ∈ (m.purgeExpired alive).showList, alive w := live_purgeExpired
  rw [setActive, ← hvisible]
  generalize m.purgeExpired alive = m at honce hlive ⊢
  split_ifs with hactive
  · rfl
  have hall : ∀ u ∈ m.showList ++ (m.upgraded alive).toList, alive u := by
    intro u hu
    rcases mem_append.mp hu with hu | hu
    · exact hlive u hu
    · exact (upgraded_eq_some.mp (mem_toList.mp hu)).2
  rw [honce.demote, filter_live hlive, filter_live fun u hu => hall u (mem_of_mem_erase hu)]
  rw [filter_append, filter_ne_erase]
  by_cases hw : alive w <;> simp [upgraded]

/-- The order after the active window has left: the bottom window is on top. -/
theorem activateNext_visible (hlive : ∀ w ∈ m.showList, alive w) :
    (m.activateNext alive).visible alive = m.showList.tail ++ m.showList.head?.toList := by
  rw [activateNext_of_live hlive]
  cases hshow : m.showList with
  | nil => rfl
  | cons a l =>
    rw [hshow] at hlive
    have hl : ∀ u ∈ l, alive u := (forall_mem_cons.mp hlive).2
    simp [visible, upgraded, filter_eq_self.mpr hl, hlive a mem_cons_self]

/-- Bringing the bottom window to the top keeps the order only if it is the only one. -/
theorem rotate_iff {l : List Window} (hnodup : l.Nodup) (hw : w ∉ l) :
    ((l.tail ++ l.head?.toList).filter (· ≠ w) = (l ++ [w]).filter (· ≠ w) ↔ l.length ≤ 1) ∧
      (l.length ≤ 1 → l.head? = ((l ++ [w]).filter (· ≠ w)).getLast?) := by
  have hne {l' : List Window} (h : ∀ u ∈ l', u ∈ l) : l'.filter (· ≠ w) = l' :=
    filter_eq_self.mpr fun u hu => decide_eq_true fun heq => hw (heq ▸ h u hu)
  have hself : (l ++ [w]).filter (· ≠ w) = l := by simpa using hne fun _ h => h
  rw [hself, hne fun u hu => ?_]
  · rcases l with _ | ⟨a, _ | ⟨b, l⟩⟩
    · simp
    · simp
    · simp only [nodup_cons, mem_cons, not_or] at hnodup
      refine ⟨iff_of_false (fun heq => ?_) (by simp), fun h => by simp at h⟩
      exact hnodup.1.1 (cons.inj heq).1.symm
  · cases l <;> grind

theorem Once.nodup_showList (h : Once alive m) (hlive : ∀ w ∈ m.showList, alive w) :
    m.showList.Nodup := by
  rw [nodup_iff_count_le_one]
  intro u
  by_cases hu : u ∈ m.showList
  · have hone := h u (hlive u hu)
    rw [places] at hone
    omega
  · simp [count_eq_zero.mpr hu]

end Order

section Steps

variable {s : Desktop} {op : WindowOp}

theorem Desktop.Placed.once (h : s.Placed) : Once s.alive s.manager := fun u hu => by
  rw [h u hu]
  split_ifs <;> omega

/-- Closing or hiding a window that is not active leaves the order of the others. -/
theorem erase_order {alive : Window → Bool} {m m' : WindowManager} {w : Window}
    (hshow : m'.showList = m.showList.erase w) (hactive : m'.active = m.active) :
    (m'.visible alive).filter (· ≠ w) = (m.visible alive).filter (· ≠ w) := by
  have hfilter : ((m.showList.erase w).filter alive).filter (· ≠ w) =
      (m.showList.filter alive).filter (· ≠ w) := by
    rw [filter_comm, filter_ne_erase, filter_comm]
  simp only [visible, upgraded, hshow, hactive, filter_append, hfilter]

/-- The active window is closed or hidden. -/
theorem stacked_iff_of_active {w : Window} (h : s.Placed) (hw : s.alive w)
    (hop : op = .deleteWindow w ∨ op = .hideWindow w)
    (hactive : s.manager.upgraded s.alive = some w) {m : WindowManager}
    (hshow : m.showList = s.manager.showList.filter s.alive)
    (hstep : (s.step op).manager = m.activateNext s.alive) (halive : (s.step op).alive = s.alive) :
    s.Stacked op ↔ (s.manager.showList.filter s.alive).length ≤ 1 := by
  have hlive : ∀ w ∈ (s.manager.purgeExpired s.alive).showList, s.alive w := live_purgeExpired
  have hnodup := h.once.purgeExpired.nodup_showList hlive
  have hnot := ((h.once.purgeExpired.not_mem hw).1 (upgraded_eq_some.mp hactive).1).1
  obtain ⟨hiff, hnext⟩ := rotate_iff hnodup hnot
  have hlive' : ∀ u ∈ m.showList, s.alive u := by rwa [hshow]
  have hwindow : op.window = w := by rcases hop with rfl | rfl <;> rfl
  have hvisible : s.manager.visible s.alive = s.manager.showList.filter s.alive ++ [w] := by
    rw [visible, hactive, toList_some]
  constructor
  · intro hstacked
    have horder := hstacked.order
    rw [hstep, halive, activateNext_visible hlive', hshow, hwindow, hvisible] at horder
    exact hiff.mp horder
  · intro hle
    refine ⟨?_, fun w' hw' hactive' => ?_⟩
    · rw [hstep, halive, activateNext_visible hlive', hshow, hwindow, hvisible]
      exact hiff.mpr hle
    · obtain rfl : w = w' := some.inj (hactive.symm.trans hactive')
      rw [hstep, activateNext_of_live hlive', hshow, hvisible]
      exact hnext hle

theorem stacked_of_order
    (horder : ((s.step op).manager.visible (s.step op).alive).filter (· ≠ op.window) =
      (s.manager.visible s.alive).filter (· ≠ op.window))
    (hnot : ∀ w, op = .deleteWindow w ∨ op = .hideWindow w → s.manager.upgraded s.alive ≠ some w) :
    s.Stacked op ↔ s.Uncovers op := by
  refine iff_of_true ⟨horder, fun w hop hactive => absurd hactive (hnot w hop)⟩ ?_
  cases op with
  | deleteWindow w => exact fun hactive => absurd hactive (hnot w (.inl rfl))
  | hideWindow w => exact fun hactive => absurd hactive (hnot w (.inr rfl))
  | _ => trivial

end Steps

theorem placed_step (s : Desktop) (op : WindowOp) (h : s.Placed) : (s.step op).Placed := by
  have honce := h.once
  by_cases hw : s.alive op.window
  · cases op with simp only [Desktop.step, if_pos hw]
    | setActive w =>
      intro u hu
      rw [honce.setActive hu, h u hu]
      grind
    | deleteWindow w =>
      intro u hu
      rw [honce.deleteWindow hu, h u hu]
      grind
    | hideWindow w =>
      exact fun u hu => (honce.hideWindow hw hu).trans (h u hu)
    | showWindow w =>
      exact fun u hu => (honce.showWindow hw hu).trans (h u hu)
    | drop w =>
      intro u hu
      refine h u ?_
      grind
  · rw [show s.step op = s from if_neg hw]
    exact h

theorem stacked_iff {s : Desktop} (h : s.Placed) (op : WindowOp) : s.Stacked op ↔ s.Uncovers op := by
  by_cases hw : s.alive op.window
  · cases op with
    | setActive w =>
      refine stacked_of_order ?_ (by rintro w (h | h) <;> cases h)
      simp only [Desktop.step, if_pos hw]
      exact setActive_order h.once
    | deleteWindow w =>
      have hw : s.alive w := hw
      have hstep : s.step (.deleteWindow w) =
          ⟨s.manager.deleteWindow s.alive w, s.alive, Function.update s.placed w false⟩ := if_pos hw
      by_cases hactive : s.manager.upgraded s.alive = some w
      · refine (stacked_iff_of_active h hw (.inl rfl) hactive (m := s.manager.purgeExpired s.alive) rfl
          ?_ (by rw [hstep])).trans ⟨fun hle _ => hle, fun hu => hu hactive⟩
        rw [hstep]
        exact if_pos hactive
      refine stacked_of_order ?_ (by rintro w' (h | h) <;> cases h; exact hactive)
      have hactive' : (s.manager.purgeExpired s.alive).upgraded s.alive ≠ some w := hactive
      rw [hstep, deleteWindow, if_neg hactive', ← visible_purgeExpired (m := s.manager)]
      split_ifs with hshow
      · exact erase_order rfl rfl
      · exact erase_order (erase_of_not_mem hshow).symm rfl
    | hideWindow w =>
      have hw : s.alive w := hw
      have hstep : s.step (.hideWindow w) =
          ⟨s.manager.hideWindow s.alive w, s.alive, s.placed⟩ := if_pos hw
      by_cases hactive : s.manager.upgraded s.alive = some w
      · refine (stacked_iff_of_active h hw (.inr rfl) hactive
          (m := (s.manager.purgeExpired s.alive).pushHidden w) ?_ ?_ (by rw [hstep])).trans
          ⟨fun hle _ => hle, fun hu => hu hactive⟩
        · rw [pushHidden]
          split_ifs <;> rfl
        · rw [hstep]
          exact if_pos hactive
      · refine stacked_of_order ?_ (by rintro w' (h | h) <;> cases h; exact hactive)
        have hactive' : (s.manager.purgeExpired s.alive).upgraded s.alive ≠ some w := hactive
        rw [hstep, hideWindow, if_neg hactive', ← visible_purgeExpired (m := s.manager)]
        split_ifs with hshow
        · refine erase_order ?_ ?_ <;> rw [pushHidden] <;> split_ifs <;> rfl
        · rfl
    | showWindow w =>
      refine stacked_of_order ?_ (by rintro w (h | h) <;> cases h)
      have hstep : s.step (.showWindow w) =
        ⟨s.manager.showWindow s.alive w, s.alive, s.placed⟩ := if_pos hw
      rw [hstep, showWindow, ← visible_purgeExpired (m := s.manager)]
      dsimp only
      split_ifs
      · rfl
      · simp [visible, upgraded, WindowOp.window]
      · rfl
    | drop w =>
      refine stacked_of_order ?_ (by rintro w (h | h) <;> cases h)
      have hstep : s.step (.drop w) =
        ⟨s.manager, Function.update s.alive w false, s.placed⟩ := if_pos hw
      rw [hstep, visible_eq_filter, visible_eq_filter, List.filter_filter, List.filter_filter]
      refine filter_congr fun u _ => ?_
      by_cases hu : u = w <;> simp [hu, WindowOp.window]
  · have hstep : s.step op = s := if_neg hw
    refine stacked_of_order (by rw [hstep]) fun w hop hactive => hw ?_
    rcases hop with rfl | rfl <;> exact (upgraded_eq_some.mp hactive).2

/-- **Window stacking.** In every state that calls and drops lead to, each live window that was made
active and not deleted since is in exactly one place; and a further step keeps the order of the other
windows, and brings up the topmost one when the active one goes, exactly if it does not take the
active window from the top of two or more. -/
theorem window_in_one_place_and_stacked_iff (ops : List WindowOp) :
    (∀ w, (run Desktop.step .new ops).alive w → (run Desktop.step .new ops).placed w →
      (run Desktop.step .new ops).manager.places w = 1) ∧
    ∀ op, (run Desktop.step .new ops).Stacked op ↔ (run Desktop.step .new ops).Uncovers op := by
  have h : (run Desktop.step .new ops).Placed := run_invariant placed_step (fun _ _ => rfl) ops
  refine ⟨fun w hw hplaced => ?_, stacked_iff h⟩
  rw [h w hw, if_pos hplaced]

/-- Of three windows the active one is closed, and the bottom one comes up. -/
theorem bottom_window_activated :
    ¬ (run Desktop.step .new [.setActive 1, .setActive 2, .setActive 3]).Stacked (.deleteWindow 3) := by
  intro h
  have hnext := h.next 3 (.inl rfl) (by decide)
  revert hnext
  decide

end Maios.Display
