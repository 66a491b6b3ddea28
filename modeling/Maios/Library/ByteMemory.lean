import Mathlib.Data.List.Basic
import Mathlib.Tactic.Common

/-!
# Writes to a byte memory

A write puts bytes at an address. A log is a list of writes in the order in which they were made.

## Main definitions

* `applyWrites` — the memory after a log
* `Final` — a write of the log that no later write touches

## Main results

* `Final.readBytes_eq` — what was written finally is there
-/

namespace Maios

open List

/-- A write: where, and what. -/
abbrev ByteWrite := ℕ × List UInt8

/-- Two ranges, each given by its start and its length, have no address in common. -/
def Apart (a n b m : ℕ) : Prop := a + n ≤ b ∨ b + m ≤ a

theorem Apart.symm {a n b m : ℕ} (h : Apart a n b m) : Apart b m a n := Or.symm h

/-- The memory after one write. -/
def applyWrite (mem : ℕ → UInt8) (w : ByteWrite) : ℕ → UInt8 := fun x =>
  if w.1 ≤ x ∧ x < w.1 + w.2.length then w.2.getD (x - w.1) 0 else mem x

def applyWrites (mem : ℕ → UInt8) (log : List ByteWrite) : ℕ → UInt8 := log.foldl applyWrite mem

/-- The `n` bytes at an address. -/
def readBytes (mem : ℕ → UInt8) (a n : ℕ) : List UInt8 := (List.range n).map fun i => mem (a + i)

/-- The log has this write, and no later write touches the place. -/
def Final (log : List ByteWrite) (a : ℕ) (bytes : List UInt8) : Prop :=
  ∃ p, log[p]? = some (a, bytes) ∧
    ∀ (q : ℕ) (w : ByteWrite), p < q → log[q]? = some w → Apart a bytes.length w.1 w.2.length

variable {mem : ℕ → UInt8} {log : List ByteWrite} {a : ℕ} {bytes : List UInt8}

theorem readBytes_applyWrite_self (mem : ℕ → UInt8) (a : ℕ) (bytes : List UInt8) :
    readBytes (applyWrite mem (a, bytes)) a bytes.length = bytes := by
  refine ext_getElem (by simp [readBytes]) fun i hi hi' => ?_
  simp [readBytes, applyWrite, hi']

theorem readBytes_applyWrites_of_apart {n : ℕ}
    (h : ∀ w ∈ log, Apart a n w.1 w.2.length) :
    readBytes (applyWrites mem log) a n = readBytes mem a n := by
  induction log generalizing mem with
  | nil => rfl
  | cons w log ih =>
    have hw : Apart a n w.1 w.2.length := h w mem_cons_self
    rw [applyWrites, foldl_cons, ← applyWrites, ih (forall_mem_cons.mp h).2]
    refine map_congr_left fun i hi => if_neg ?_
    have hlt : i < n := mem_range.mp hi
    rcases hw with hw | hw <;> omega

/-- What has been written finally is read back. -/
theorem Final.readBytes_eq (h : Final log a bytes) (mem : ℕ → UInt8) :
    readBytes (applyWrites mem log) a bytes.length = bytes := by
  obtain ⟨p, hp, hlater⟩ := h
  obtain ⟨hlt, hget⟩ := List.getElem?_eq_some_iff.mp hp
  have hsplit : log = log.take p ++ (a, bytes) :: log.drop (p + 1) := by
    rw [← hget, ← drop_eq_getElem_cons hlt, take_append_drop]
  have hafter : ∀ w ∈ log.drop (p + 1), Apart a bytes.length w.1 w.2.length := by
    intro w hw
    obtain ⟨i, hi⟩ := getElem?_of_mem hw
    rw [getElem?_drop] at hi
    exact hlater (p + 1 + i) w (by omega) hi
  rw [hsplit, applyWrites, foldl_append, foldl_cons, ← applyWrites,
    readBytes_applyWrites_of_apart hafter, readBytes_applyWrite_self]

end Maios
