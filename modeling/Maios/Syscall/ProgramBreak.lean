import Mathlib.Algebra.Ring.Nat
import Maios.Library.Run

/-!
# The program break

`sys_brk` moves the program break and, when it grows, takes new pages by which the new part is to be
backed. The pages are those that `memory::create_mapping` finds, wherever they are; the break moves
in a range of its own. Pages are kept when the break goes down, and taken anew when it grows again.
The contents of the pages are left out.

## Main results

* `break_backed_iff` — when all of the break is backed, all along a run
-/

namespace Maios.Syscall

/-- `MappedPages` -/
structure Mapping where
  startPage : ℕ
  pages : ℕ

def Mapping.startAddress (mp : Mapping) : ℕ := mp.startPage * 4096

def Mapping.sizeInBytes (mp : Mapping) : ℕ := mp.pages * 4096

instance : Membership ℕ Mapping :=
  ⟨fun mp byte => mp.startAddress ≤ byte ∧ byte < mp.startAddress + mp.sizeInBytes⟩

instance (byte : ℕ) (mp : Mapping) : Decidable (byte ∈ mp) := inferInstanceAs (Decidable (_ ∧ _))

/-- `BRK_STATE` and `BRK_PAGES` -/
structure BrkState where
  currentBrk : ℕ
  initialBrk : ℕ
  pages : List Mapping

namespace BrkState

def initial : BrkState := ⟨0x60000000, 0x60000000, []⟩

variable (s : BrkState)

/-- `sys_brk`, where `createMapping` is what the memory subsystem answers for a size. -/
def sysBrk (addr : ℕ) (createMapping : ℕ → Option Mapping) : ℕ × BrkState :=
  if addr = 0 ∨ addr < s.initialBrk then (s.currentBrk, s)
  else if addr ≤ s.currentBrk then (addr, { s with currentBrk := addr })
  else
    match createMapping (addr - s.currentBrk) with
    | some mp => (addr, { s with currentBrk := addr, pages := s.pages ++ [mp] })
    | none => (s.currentBrk, s)

/-- A call: the address, and how pages are found for it. -/
abbrev BrkCall := ℕ × (ℕ → Option Mapping)

def step (call : BrkCall) : BrkState := (s.sysBrk call.1 call.2).2

/-- Every byte below the break is in a page that is held. -/
def Backed : Prop :=
  ∀ byte, s.initialBrk ≤ byte → byte < s.currentBrk → ∃ mp ∈ s.pages, byte ∈ mp

/-- When the break grows, its new part is in pages that are held or in those that are found. -/
def GrowsInPlace (call : BrkCall) : Prop :=
  ∀ mp, call.2 (call.1 - s.currentBrk) = some mp →
    ∀ byte, s.initialBrk ≤ byte → s.currentBrk ≤ byte → byte < call.1 →
      (∃ mp ∈ s.pages, byte ∈ mp) ∨ byte ∈ mp

/-- What is asked of the memory subsystem: pages that are not held, as many as are needed. -/
def FindsFresh (call : BrkCall) : Prop :=
  ∀ mp, call.2 (call.1 - s.currentBrk) = some mp →
    call.1 - s.currentBrk ≤ mp.sizeInBytes ∧ ∀ mp' ∈ s.pages, ∀ byte ∈ mp', byte ∉ mp

variable {s}

theorem backed_step_iff (h : s.Backed) (call : BrkCall) :
    (s.step call).Backed ↔ s.GrowsInPlace call := by
  obtain ⟨addr, createMapping⟩ := call
  rw [step, sysBrk]
  split_ifs with hlow hdown
  · refine iff_of_true h fun mp _ byte hinitial _ hlt => ?_
    omega
  · refine iff_of_true (fun byte hinitial hlt => ?_) fun mp _ byte _ hle hlt => ?_
    · exact h byte hinitial (lt_of_lt_of_le hlt hdown)
    · exact absurd (lt_of_lt_of_le hlt hdown) (not_lt.mpr hle)
  rw [GrowsInPlace]
  dsimp only
  cases createMapping (addr - s.currentBrk) with
  | none => exact iff_of_true h nofun
  | some mp =>
    have hmem : ∀ byte, (∃ mp' ∈ s.pages ++ [mp], byte ∈ mp') ↔
        (∃ mp' ∈ s.pages, byte ∈ mp') ∨ byte ∈ mp := by
      simp
    simp only [Backed, hmem, Option.some.injEq, forall_eq']
    refine forall_congr' fun byte => forall_congr' fun hinitial => ?_
    refine ⟨fun hbacked _ => hbacked, fun hgrows hlt => ?_⟩
    rcases lt_or_ge byte s.currentBrk with hold | hnew
    · exact .inl (h byte hinitial hold)
    · exact hgrows hnew hlt

/-- **All of the program break is backed, after every call of a run, if and only if it grows into
the pages that are found or held.** -/
theorem break_backed_iff (calls : List BrkCall) :
    Guarded step (fun s call => (s.step call).Backed) initial calls ↔
      Guarded step GrowsInPlace initial calls :=
  guarded_iff_of_step (I := Backed) (fun _ call h => backed_step_iff h call)
    (fun _ hle hlt => absurd hlt (not_lt.mpr hle)) calls

/-- The first page of the break, with a fresh page that is somewhere else. -/
theorem break_not_backed :
    let call : BrkCall := (0x60001000, fun _ => some ⟨1, 1⟩)
    initial.FindsFresh call ∧ (initial.sysBrk call.1 call.2).1 = 0x60001000 ∧
      ¬ (initial.step call).Backed := by
  refine ⟨?_, rfl, fun h => ?_⟩
  · rintro mp ⟨⟩
    exact ⟨by decide, by simp [initial]⟩
  · obtain ⟨mp, hmp, hbyte⟩ := h 0x60000000 (by decide) (by decide)
    obtain rfl := List.mem_singleton.mp hmp
    exact absurd hbyte (by decide)

end BrkState

end Maios.Syscall
