import Maios.Library.OrdMap
import Maios.Library.Run
import Maios.Library.Word

/-!
# The resource table of a task

A task refers to its resources by numbers. Linux programs get descriptors, counted from 3, and Windows
programs get handles, counted from `0x100` in steps of 4. Both are keys of one table, in which the
standard streams are installed under three numbers of either kind and cannot be closed.

What a file or a mapping is does not matter to the table: they are type variables here.
-/

namespace Maios.Syscall

open OrdMap

/-- What a number refers to. -/
inductive Resource (F M : Type) where
  | stdin
  | stdout
  | stderr
  | file (file : F) (offset : ℕ)
  | memory (pages : M) (base size : ℕ)
  deriving DecidableEq

/-- A copy of the resource; mappings cannot be duplicated. -/
def Resource.duplicate {F M : Type} : Resource F M → Option (Resource F M)
  | stdin => some stdin
  | stdout => some stdout
  | stderr => some stderr
  | file f offset => some (file f offset)
  | memory _ _ _ => none

structure ResourceTable (F M : Type) where
  resources : OrdMap ℕ (Resource F M)
  /-- The next descriptor. -/
  nextFd : ℕ
  /-- The next handle. -/
  nextHandle : ℕ

namespace ResourceTable

variable {F M : Type}

def new : ResourceTable F M where
  resources := (((((OrdMap.empty.insert 0 .stdin).insert 1 .stdout).insert 2 .stderr).insert 0x03
    .stdin).insert 0x07 .stdout).insert 0x0B .stderr
  nextFd := 3
  nextHandle := 0x100

def allocFd (t : ResourceTable F M) (resource : Resource F M) : ℕ × ResourceTable F M :=
  (t.nextFd, { t with
    nextFd := wrap (t.nextFd + 1), resources := t.resources.insert t.nextFd resource })

def allocHandle (t : ResourceTable F M) (resource : Resource F M) : ℕ × ResourceTable F M :=
  (t.nextHandle, { t with
    nextHandle := wrap (t.nextHandle + 4), resources := t.resources.insert t.nextHandle resource })

/-- The numbers that cannot be closed. -/
def isStdio (handle : ℕ) : Bool := handle ∈ [0, 1, 2, 0x03, 0x07, 0x0B]

def close (t : ResourceTable F M) (handle : ℕ) : Option (Resource F M) × ResourceTable F M :=
  if handle ∈ [0, 1, 2, 0x03, 0x07, 0x0B] then (none, t)
  else (t.resources.find? handle, { t with resources := t.resources.remove handle })

def get (t : ResourceTable F M) (handle : ℕ) : Option (Resource F M) := t.resources.find? handle

/-- The table with another resource under the number, as written through `get_mut`. -/
def set (t : ResourceTable F M) (handle : ℕ) (resource : Resource F M) : ResourceTable F M :=
  { t with resources := t.resources.insert handle resource }

def dup (t : ResourceTable F M) (srcHandle : ℕ) : Option ℕ × ResourceTable F M :=
  match (t.get srcHandle).bind Resource.duplicate with
  | none => (none, t)
  | some dupResource => (some (t.allocFd dupResource).1, (t.allocFd dupResource).2)

def dup2 (t : ResourceTable F M) (srcHandle targetFd : ℕ) : Option ℕ × ResourceTable F M :=
  if srcHandle = targetFd then
    if (t.get srcHandle).isSome then (some targetFd, t) else (none, t)
  else
    match (t.get srcHandle).bind Resource.duplicate with
    | none => (none, t)
    | some dupResource =>
      let resources := if isStdio targetFd then t.resources else t.resources.remove targetFd
      (some targetFd, { t with resources := resources.insert targetFd dupResource })

section Lookup

variable (t : ResourceTable F M) {n m : ℕ} (r : Resource F M)

@[simp] theorem get_allocFd_self : (t.allocFd r).2.get t.nextFd = some r :=
  find?_insert_self _ _ _

@[simp] theorem get_allocHandle_self : (t.allocHandle r).2.get t.nextHandle = some r :=
  find?_insert_self _ _ _

theorem get_allocFd_of_ne (h : m ≠ t.nextFd) : (t.allocFd r).2.get m = t.get m :=
  find?_insert_of_ne _ _ h

theorem get_allocHandle_of_ne (h : m ≠ t.nextHandle) : (t.allocHandle r).2.get m = t.get m :=
  find?_insert_of_ne _ _ h

@[simp] theorem get_set_self : (t.set n r).get n = some r := find?_insert_self _ _ _

theorem get_set_of_ne (h : m ≠ n) : (t.set n r).get m = t.get m := find?_insert_of_ne _ _ h

theorem close_of_not_stdio (h : isStdio n = false) : (t.close n).1 = t.get n := by
  rw [close, if_neg (of_decide_eq_false h)]
  rfl

theorem close_of_stdio (h : isStdio n = true) : t.close n = (none, t) := by
  rw [close, if_pos (of_decide_eq_true h)]

theorem get_close_of_ne (h : m ≠ n) : (t.close n).2.get m = t.get m := by
  rw [close]
  split_ifs
  · rfl
  · exact find?_remove_of_ne _ h

/-- A duplicate onto a number changes nothing, or only the entry of the number. -/
theorem dup2_cases (src n : ℕ) : (t.dup2 src n).2 = t ∨
    ∃ r, (t.dup2 src n).2.get n = some r ∧ (∀ m ≠ n, (t.dup2 src n).2.get m = t.get m) ∧
      (t.dup2 src n).2.nextFd = t.nextFd := by
  rw [dup2]
  by_cases hsame : src = n
  · rw [if_pos hsame]
    split_ifs <;> exact .inl rfl
  rw [if_neg hsame]
  rcases (t.get src).bind Resource.duplicate with _ | r
  · exact .inl rfl
  · refine .inr ⟨r, find?_insert_self _ _ _, fun m hm => ?_, rfl⟩
    refine (find?_insert_of_ne _ _ hm).trans ?_
    split_ifs
    · rfl
    · exact find?_remove_of_ne _ hm

theorem get_dup2_of_ne {src : ℕ} (h : m ≠ n) : (t.dup2 src n).2.get m = t.get m := by
  rcases t.dup2_cases src n with heq | ⟨r, -, hothers, -⟩
  · rw [heq]
  · exact hothers m h

@[simp] theorem nextFd_dup2 (src n : ℕ) : (t.dup2 src n).2.nextFd = t.nextFd := by
  rcases t.dup2_cases src n with heq | ⟨r, -, -, hnext⟩
  · rw [heq]
  · exact hnext

@[simp] theorem nextFd_close (n : ℕ) : (t.close n).2.nextFd = t.nextFd := by
  rw [close]
  split_ifs
  · rfl
  · rfl

end Lookup

end ResourceTable

/-! ### Calls on a table -/

/-- The calls that change which numbers are in use. -/
inductive TableOp (F M : Type) where
  | allocFd (resource : Resource F M)
  | allocHandle (resource : Resource F M)
  | dup (srcHandle : ℕ)
  | dup2 (srcHandle targetFd : ℕ)
  | close (handle : ℕ)

namespace TableOp

variable {F M : Type}

def step (t : ResourceTable F M) : TableOp F M → ResourceTable F M
  | allocFd resource => (t.allocFd resource).2
  | allocHandle resource => (t.allocHandle resource).2
  | dup srcHandle => (t.dup srcHandle).2
  | dup2 srcHandle targetFd => (t.dup2 srcHandle targetFd).2
  | close handle => (t.close handle).2

/-- The number that the table chooses and returns. -/
def given (t : ResourceTable F M) : TableOp F M → Option ℕ
  | allocFd resource => some (t.allocFd resource).1
  | allocHandle resource => some (t.allocHandle resource).1
  | dup srcHandle => (t.dup srcHandle).1
  | dup2 _ _ => none
  | close _ => none

/-- The resource to which the call gives a number. -/
def resource (t : ResourceTable F M) : TableOp F M → Option (Resource F M)
  | allocFd resource => some resource
  | allocHandle resource => some resource
  | dup srcHandle => (t.get srcHandle).bind Resource.duplicate
  | dup2 _ _ => none
  | close _ => none

/-- The number that the caller has chosen. -/
def target : TableOp F M → Option ℕ
  | allocFd _ => none
  | allocHandle _ => none
  | dup _ => none
  | dup2 _ targetFd => some targetFd
  | close handle => some handle

end TableOp

end Maios.Syscall
