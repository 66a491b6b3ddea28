import Mathlib.Data.List.Basic
import Mathlib.Data.List.Nodup
import Mathlib.Tactic.Common

/-!
# Lists threaded through a table

A table gives each cell the next one. A *thread* is the list of cells that one reaches from a first
cell by following the table, all of them sound, up to the first cell whose entry is a stop mark. It
is determined by its first cell, so it cannot return to a cell, and it does not depend on the table
outside its own cells.

## Main definitions

* `Thread`

## Main results

* `Thread.eq` — there is at most one thread from a cell
* `Thread.nodup` — a thread has no loop
* `Thread.congr`, `Thread.snoc` — threads in a changed table
-/

namespace Maios

open List

variable {α : Type*} {ok stop : α → Prop} {next next' : α → α} {a b : α} {l l' : List α}

/-- The cells from `a` on, up to the first one whose entry is a stop mark. -/
inductive Thread (ok stop : α → Prop) (next : α → α) : α → List α → Prop
  | last {a : α} (ha : ok a) (hstop : stop (next a)) : Thread ok stop next a [a]
  | link {a : α} {l : List α} (ha : ok a) (hgo : ¬ stop (next a))
      (h : Thread ok stop next (next a) l) : Thread ok stop next a (a :: l)

namespace Thread

variable (h : Thread ok stop next a l)

include h

theorem head : ∃ l', l = a :: l' := by
  induction h with
  | last => exact ⟨[], rfl⟩
  | @link a l => exact ⟨l, rfl⟩

theorem head_mem : a ∈ l := by
  obtain ⟨l', rfl⟩ := h.head
  exact mem_cons_self

theorem ok_of_mem (hb : b ∈ l) : ok b := by
  induction h with
  | last ha =>
    rw [mem_singleton.mp hb]
    exact ha
  | link ha _ _ ih =>
    rcases mem_cons.mp hb with rfl | hb
    · exact ha
    · exact ih hb

/-- **There is one thread from a cell.** -/
theorem eq (h' : Thread ok stop next a l') : l = l' := by
  induction h generalizing l' with
  | last _ hstop =>
    rcases h' with _ | ⟨_, hgo, _⟩
    · rfl
    · exact absurd hstop hgo
  | link _ hgo _ ih =>
    rcases h' with ⟨_, hstop⟩ | ⟨_, _, h'⟩
    · exact absurd hstop hgo
    · rw [ih h']

/-- Each cell of a thread is the first one of the rest of the thread. -/
theorem of_mem (hb : b ∈ l) : ∃ l', Thread ok stop next b l' ∧ l'.length ≤ l.length := by
  induction h with
  | last ha hstop =>
    rw [mem_singleton.mp hb]
    exact ⟨_, .last ha hstop, Nat.le_refl _⟩
  | link ha hgo h ih =>
    rcases mem_cons.mp hb with rfl | hb
    · exact ⟨_, .link ha hgo h, Nat.le_refl _⟩
    · obtain ⟨l', hl', hle⟩ := ih hb
      exact ⟨l', hl', Nat.le_succ_of_le hle⟩

/-- **A thread has no loop.** -/
theorem nodup : l.Nodup := by
  induction h with
  | last => exact nodup_singleton _
  | @link a l ha hgo h ih =>
    refine nodup_cons.mpr ⟨fun hmem => ?_, ih⟩
    -- the rest of the thread from its second visit of the cell is the whole thread again
    obtain ⟨l', hl', hle⟩ := h.of_mem hmem
    have heq : l' = a :: l := hl'.eq (.link ha hgo h)
    rw [heq] at hle
    exact Nat.not_succ_le_self _ hle

/-- A thread depends on the table at its own cells only. -/
theorem congr (hnext : ∀ b ∈ l, next' b = next b) : Thread ok stop next' a l := by
  induction h with
  | @last a ha hstop =>
    refine .last ha ?_
    rw [hnext a mem_cons_self]
    exact hstop
  | @link a l ha hgo _ ih =>
    have ha' : next' a = next a := hnext a mem_cons_self
    refine .link ha (ha'.symm ▸ hgo) ?_
    rw [ha']
    exact ih (forall_mem_cons.mp hnext).2

/-- A thread is longer by one cell when its last entry is made to name a new cell. -/
theorem snoc (hb : ok b) (hgo : ¬ stop b) (hstop : stop (next' b))
    (hlast : ∀ c ∈ l.getLast?, next' c = b) (hnext : ∀ c ∈ l, c ∉ l.getLast? → next' c = next c) :
    Thread ok stop next' a (l ++ [b]) := by
  have hnodup := h.nodup
  induction h with
  | @last a ha _ =>
    have ha' : next' a = b := hlast a rfl
    refine .link ha (ha'.symm ▸ hgo) ?_
    rw [ha']
    exact .last hb hstop
  | @link a l ha hgo' h ih =>
    obtain ⟨l', rfl⟩ := h.head
    rw [nodup_cons] at hnodup
    have ha' : next' a = next a := by
      refine hnext a mem_cons_self fun hmem => hnodup.1 ?_
      exact mem_of_mem_getLast? hmem
    refine .link ha (ha'.symm ▸ hgo') ?_
    rw [ha']
    exact ih hlast (forall_mem_cons.mp hnext).2 hnodup.2

end Thread

end Maios
