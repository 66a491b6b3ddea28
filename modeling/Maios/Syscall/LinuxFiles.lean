import Maios.Syscall.FileIo
import Mathlib.Algebra.Ring.Int.Defs

/-!
# Files as Linux has them

In Linux a descriptor refers to an open file description, which has a file, one offset and the flags
of the call that opened it. Duplicates of a descriptor refer to the same description. A descriptor that
is given out is the lowest number that is not open.

The calls of the kernel do what Linux does as long as the offset stored for the descriptor is that of
its description, no read starts at or behind the end of the file, no file that has bytes is truncated,
a descriptor opened for appending is at the end when it is written to, and the next descriptor is the
lowest one. The kernel sees to none of this.

## Main results

* `calls_as_linux` — the results are those of Linux along every run
-/

namespace Maios.Syscall

open ResourceTable List Option OrdMap HeapFile

/-! ### The model -/

/-- An open file description. -/
structure Description where
  file : ℕ
  offset : ℕ
  append : Bool
  deriving DecidableEq

/-- What a descriptor refers to. -/
inductive Target where
  | stdin
  | stdout
  | stderr
  /-- A description, by its place in the list of all descriptions. -/
  | desc (i : ℕ)
  deriving DecidableEq

structure Linux (D : Type) where
  files : List Bytes
  dirs : D
  descs : List Description
  fds : OrdMap ℕ Target

/-- The lowest number that is not open. -/
def lowest (fds : OrdMap ℕ Target) : ℕ :=
  ((List.range (fds.entries.length + 1)).find? fun n => (fds.find? n).isNone).getD 0

theorem lowest_eq {fds : OrdMap ℕ Target} {n : ℕ} (hfree : fds.find? n = none)
    (hused : ∀ m < n, fds.find? m ≠ none) : lowest fds = n := by
  have hle : n ≤ fds.entries.length := by
    have hsub : range n ⊆ fds.entries.map Prod.fst := by
      intro m hm
      obtain ⟨a, ha⟩ := ne_none_iff_exists'.mp (hused m (mem_range.mp hm))
      exact mem_map_of_mem (find?_eq_some.mp ha)
    have hlen := (subperm_of_subset nodup_range hsub).length_le
    rwa [length_range, length_map] at hlen
  have hfind : (range (fds.entries.length + 1)).find? (fun n => (fds.find? n).isNone) =
      some n := by
    rw [find?_range_eq_some]
    refine ⟨by rw [hfree]; rfl, mem_range.mpr (Nat.lt_succ_of_le hle), fun m hm => ?_⟩
    rw [Bool.not_eq_true', isNone_eq_false_iff, isSome_iff_ne_none]
    exact hused m hm
  rw [lowest, hfind, getD_some]

section Exec

variable {D M P : Type} (names : Names D P)

namespace Linux

variable (m : Linux D)

def file (f : ℕ) : Bytes := m.files.getD f []

/-- The description of a descriptor, with its place. -/
def desc? (fd : ℕ) : Option (ℕ × Description) :=
  match m.fds.find? fd with
  | some (.desc i) => (m.descs[i]?).map fun d => (i, d)
  | _ => none

/-- A new description of the file, at its start, with the lowest descriptor. -/
def openFile (flags f : ℕ) : Reply × Linux D :=
  (.ret (lowest m.fds), { m with
    descs := m.descs ++ [⟨f, 0, flags &&& oAppend ≠ 0⟩]
    fds := m.fds.insert (lowest m.fds) (.desc m.descs.length) })

/-- Where a write to the description goes that would go to the offset. -/
def writePos (d : Description) (offset : ℕ) : ℕ :=
  if d.append then (m.file d.file).length else offset

/-- The files after a write. -/
def written (d : Description) (data : Bytes) (offset : ℕ) : List Bytes :=
  m.files.set d.file (overwrite 0 (m.file d.file) data (m.writePos d offset))

/-- The description with another offset. -/
def seek (i : ℕ) (d : Description) (offset : ℕ) : Linux D :=
  { m with descs := m.descs.set i { d with offset } }

def exec : SysCall P → Reply × Linux D
  | .open path flags =>
    match names.lookup m.dirs path with
    | some (.file f) =>
      if flags &&& oCreat ≠ 0 ∧ flags &&& oExcl ≠ 0 then (.err .fileExists, m)
      else if flags &&& oTrunc ≠ 0 then openFile { m with files := m.files.set f [] } flags f
      else m.openFile flags f
    | some .dir => (.err .isADirectory, m)
    | none =>
      if flags &&& oCreat = 0 then (.err .notFound, m)
      else
        match names.create m.dirs path m.files.length with
        | .ok dirs => openFile { m with files := m.files ++ [[]], dirs } flags m.files.length
        | .error e => (.err e, m)
  | .read fd count =>
    match m.desc? fd with
    | some (i, d) =>
      let bytes := ((m.file d.file).drop d.offset).take count
      (.data bytes, m.seek i d (d.offset + bytes.length))
    | none => (.err .badFileDescriptor, m)
  | .write fd data =>
    match m.desc? fd with
    | some (i, d) =>
      if data.length = 0 then (.ret 0, m)
      else (.ret data.length, { m.seek i d (m.writePos d d.offset + data.length) with
        files := m.written d data d.offset })
    | none => (.err .badFileDescriptor, m)
  | .lseek fd offset whence =>
    match m.desc? fd with
    | some (i, d) =>
      let newOffset :=
        if whence = 0 then some offset
        else if whence = 1 then some (d.offset + offset)
        else if whence = 2 then some ((m.file d.file).length + offset)
        else none
      match newOffset with
      | none => (.err .invalidArgument, m)
      | some newOffset =>
        if newOffset < 0 then (.err .invalidArgument, m)
        else (.ret newOffset.toNat, m.seek i d newOffset.toNat)
    | none => (.err .badFileDescriptor, m)
  | .pread64 fd count offset =>
    match m.desc? fd with
    | some (_, d) => (.data (((m.file d.file).drop offset).take count), m)
    | none => (.err .badFileDescriptor, m)
  | .pwrite64 fd data offset =>
    match m.desc? fd with
    | some (_, d) =>
      if data.length = 0 then (.ret 0, m)
      else (.ret data.length, { m with files := m.written d data offset })
    | none => (.err .badFileDescriptor, m)
  | .dup fd =>
    match m.fds.find? fd with
    | some target =>
      (.ret (lowest m.fds), { m with fds := m.fds.insert (lowest m.fds) target })
    | none => (.err .badFileDescriptor, m)
  | .dup2 oldfd newfd =>
    match m.fds.find? oldfd with
    | some target => (.ret newfd, { m with fds := m.fds.insert newfd target })
    | none => (.err .badFileDescriptor, m)
  | .close fd =>
    match m.fds.find? fd with
    | some _ => (.ret 0, { m with fds := m.fds.remove fd })
    | none => (.err .badFileDescriptor, m)

end Linux

/-! ### When a call conforms -/

/-- The next descriptor is the lowest that is not open. -/
def NextLowest (s : Kernel D M) (m : Linux D) : Prop :=
  m.fds.find? s.table.nextFd = none ∧ ∀ n < s.table.nextFd, m.fds.find? n ≠ none

/-- The call opens a file. -/
def Opens (dirs : D) (next : ℕ) (path : P) (flags : ℕ) : Prop :=
  match names.lookup dirs path with
  | some (.file _) => ¬ (flags &&& oCreat ≠ 0 ∧ flags &&& oExcl ≠ 0)
  | some .dir => False
  | none => flags &&& oCreat ≠ 0 ∧ ∃ dirs', names.create dirs path next = .ok dirs'

/-- The call does what Linux does. The descriptor is open, and it refers to a file where one is
needed. What matters is the offset in the table, the next number, truncation, appending and the end
of the file; the bounds of `2 ^ 63` are those of the results. -/
def Conforms (st : Kernel D M × Linux D) : SysCall P → Prop
  | .open path flags => Opens names st.1.dirs st.1.files.length path flags →
      NextLowest st.1 st.2 ∧ (flags &&& oTrunc ≠ 0 → ∀ f,
        names.lookup st.1.dirs path = some (.file f) → st.1.file f = [])
  | .read fd count => ∃ i d, st.2.desc? fd = some (i, d) ∧ (count = 0 ∨
      st.1.table.get fd = some (.file d.file d.offset) ∧ d.offset < (st.1.file d.file).length)
  | .write fd data => ∃ i d, st.2.desc? fd = some (i, d) ∧ (data.length = 0 ∨
      st.1.table.get fd = some (.file d.file (st.2.writePos d d.offset)) ∧
        st.2.writePos d d.offset + data.length < 2 ^ 63)
  | .lseek fd offset whence => ∃ i d, st.2.desc? fd = some (i, d) ∧
      (whence = 1 → st.1.table.get fd = some (.file d.file d.offset) ∧ d.offset < 2 ^ 63 ∧
        -2 ^ 63 ≤ d.offset + offset ∧ d.offset + offset < 2 ^ 63) ∧
      (whence = 2 → (st.1.file d.file).length < 2 ^ 63 ∧
        -2 ^ 63 ≤ (st.1.file d.file).length + offset ∧ (st.1.file d.file).length + offset < 2 ^ 63)
  | .pread64 fd count offset => ∃ i d, st.2.desc? fd = some (i, d) ∧
      (count = 0 ∨ offset < (st.1.file d.file).length)
  | .pwrite64 fd data offset => ∃ i d, st.2.desc? fd = some (i, d) ∧ (data.length = 0 ∨
      offset = st.2.writePos d offset ∧ offset + data.length < 2 ^ 63)
  | .dup fd => st.2.fds.find? fd ≠ none ∧ NextLowest st.1 st.2
  | .dup2 oldfd _ => st.2.fds.find? oldfd ≠ none
  | .close fd => st.2.fds.find? fd ≠ none

/-! ### What one call preserves -/

/-- The entry of the table is what the descriptor refers to. -/
def Refers (m : Linux D) (entry : Option (Resource ℕ M)) : Target → Prop
  | .stdin => entry = some .stdin
  | .stdout => entry = some .stdout
  | .stderr => entry = some .stderr
  | .desc i => ∃ d offset, m.descs[i]? = some d ∧ entry = some (.file d.file offset)

/-- The descriptions are still there, with their files. -/
def SameFiles (descs descs' : List Description) : Prop :=
  ∀ (i : ℕ) (d : Description), descs[i]? = some d →
    ∃ d' : Description, descs'[i]? = some d' ∧ d'.file = d.file

variable (descs : List Description)

theorem SameFiles.refl : SameFiles descs descs :=
  fun _ d hd => ⟨d, hd, rfl⟩

theorem SameFiles.append (more : List Description) : SameFiles descs (descs ++ more) := by
  intro i d hd
  have hlt : i < descs.length := (List.getElem?_eq_some_iff.mp hd).1
  exact ⟨d, (getElem?_append_left hlt).trans hd, rfl⟩

theorem SameFiles.set {descs : List Description} {i : ℕ} {d : Description}
    (hd : descs[i]? = some d) (offset : ℕ) : SameFiles descs (descs.set i { d with offset }) := by
  intro j d₀ hj
  obtain rfl | hij := eq_or_ne i j
  · obtain rfl : d = d₀ := some.inj (hd.symm.trans hj)
    exact ⟨_, getElem?_set_self (List.getElem?_eq_some_iff.mp hd).1, rfl⟩
  · exact ⟨d₀, (getElem?_set_ne hij).trans hj, rfl⟩

/-- The kernel and the model have the same files and directories, and a descriptor that is open in the
model refers to the same file in both. -/
structure Agrees (s : Kernel D M) (m : Linux D) : Prop where
  files : s.files = m.files
  dirs : s.dirs = m.dirs
  fds : ∀ fd target, m.fds.find? fd = some target → Refers m (s.table.get fd) target

namespace Agrees

variable {s : Kernel D M} {m : Linux D} {fd i n count : ℕ} {d : Description} {target : Target}
  (h : Agrees s m)

theorem file (h : Agrees s m) (f : ℕ) : s.file f = m.file f := by
  rw [Kernel.file, Linux.file, h.files]

/-- A descriptor of a file. -/
theorem of_desc (h : Agrees s m) (hd : m.desc? fd = some (i, d)) : m.fds.find? fd = some (.desc i) ∧
    m.descs[i]? = some d ∧ ∃ offset, s.table.get fd = some (.file d.file offset) := by
  rw [Linux.desc?] at hd
  rcases hfd : m.fds.find? fd with _ | _ | _ | _ | j <;> rw [hfd] at hd
  · cases hd
  · cases hd
  · cases hd
  · cases hd
  · obtain ⟨d', hd', heq⟩ := map_eq_some_iff.mp hd
    obtain ⟨rfl, rfl⟩ := Prod.mk.inj heq
    obtain ⟨d, offset, hdesc, hentry⟩ := h.fds fd _ hfd
    obtain rfl : d' = d := some.inj (hd'.symm.trans hdesc)
    exact ⟨rfl, hd', offset, hentry⟩

/-- What a descriptor refers to can be duplicated. -/
theorem duplicate (h : Agrees s m) (hfd : m.fds.find? fd = some target) :
    ∃ r, (s.table.get fd).bind Resource.duplicate = some r ∧ Refers m (some r) target := by
  have hrefers := h.fds fd target hfd
  rcases target with _ | _ | _ | i
  · exact ⟨.stdin, by rw [hrefers]; rfl, rfl⟩
  · exact ⟨.stdout, by rw [hrefers]; rfl, rfl⟩
  · exact ⟨.stderr, by rw [hrefers]; rfl, rfl⟩
  · obtain ⟨d, offset, hdesc, hentry⟩ := hrefers
    exact ⟨.file d.file offset, by rw [hentry]; rfl, d, offset, hdesc, rfl⟩

/-- What the other descriptors refer to depends only on the files of the descriptions. -/
theorem refers_mono {m' : Linux D} {entry : Option (Resource ℕ M)}
    (hdescs : SameFiles m.descs m'.descs) (href : Refers m entry target) : Refers m' entry target := by
  rcases target with _ | _ | _ | i
  · exact href
  · exact href
  · exact href
  · obtain ⟨d, offset, hdesc, hentry⟩ := href
    obtain ⟨d', hdesc', hfile⟩ := hdescs i d hdesc
    exact ⟨d', offset, hdesc', by rw [hfile, hentry]⟩

section

variable (h : Agrees s m)

include h

/-- A descriptor is moved. -/
theorem moved (hd : m.desc? fd = some (i, d)) {files : List Bytes} (offset offset' : ℕ) :
    Agrees { s with files, table := s.table.set fd (.file d.file offset) }
      { m.seek i d offset' with files } := by
  obtain ⟨hfd, hdesc, -⟩ := h.of_desc hd
  have hdescs := SameFiles.set hdesc offset'
  refine ⟨rfl, h.dirs, fun fd' target hfd' => ?_⟩
  obtain rfl | heq := eq_or_ne fd' fd
  · obtain rfl : Target.desc i = target := some.inj (hfd.symm.trans hfd')
    obtain ⟨d', hdesc', hfile⟩ := hdescs i d hdesc
    refine ⟨d', offset, hdesc', ?_⟩
    rw [hfile]
    exact s.table.get_set_self _
  · have hget : (s.table.set fd (.file d.file offset)).get fd' = s.table.get fd' :=
      s.table.get_set_of_ne _ heq
    show Refers _ ((s.table.set fd (.file d.file offset)).get fd') target
    rw [hget]
    exact refers_mono hdescs (h.fds fd' target hfd')

/-- A descriptor is given out. -/
theorem opened (hnext : NextLowest s m) {r : Resource ℕ M} {descs : List Description}
    (hdescs : SameFiles m.descs descs) (href : Refers { m with descs } (some r) target) :
    Agrees { s with table := (s.table.allocFd r).2 }
      { m with descs, fds := m.fds.insert (lowest m.fds) target } := by
  have hlowest := lowest_eq hnext.1 hnext.2
  refine ⟨h.files, h.dirs, fun fd' target' hfd' => ?_⟩
  show Refers _ ((s.table.allocFd r).2.get fd') target'
  rw [hlowest] at hfd'
  obtain rfl | heq := eq_or_ne fd' s.table.nextFd
  · rw [find?_insert_self] at hfd'
    obtain rfl : target = target' := some.inj hfd'
    rw [s.table.get_allocFd_self]
    exact href
  · rw [find?_insert_of_ne _ _ heq] at hfd'
    rw [s.table.get_allocFd_of_ne _ heq]
    exact refers_mono hdescs (h.fds fd' target' hfd')

theorem openFile (hnext : NextLowest s m) (flags f : ℕ) :
    (s.openFile flags f).1 = (m.openFile flags f).1 ∧
      Agrees (s.openFile flags f).2 (m.openFile flags f).2 := by
  refine ⟨congrArg Reply.ret (lowest_eq hnext.1 hnext.2).symm, ?_⟩
  refine h.opened hnext (SameFiles.append _ _) ⟨⟨f, 0, flags &&& oAppend ≠ 0⟩, _, ?_, rfl⟩
  exact getElem?_concat_length

theorem sysOpen {path : P} {flags : ℕ} (hcond : Conforms names (s, m) (.open path flags)) :
    (s.sysOpen names path flags).1 = (m.exec names (.open path flags)).1 ∧
      Agrees (s.sysOpen names path flags).2 (m.exec names (.open path flags)).2 := by
  rw [Conforms, Opens] at hcond
  rw [Kernel.sysOpen, Linux.exec, ← h.dirs]
  rcases hlookup : names.lookup s.dirs path with _ | f | _
  · rw [hlookup] at hcond
    by_cases hcreat : flags &&& oCreat = 0
    · simp only [if_pos hcreat]
      exact ⟨trivial, h⟩
    simp only [if_neg hcreat]
    rw [← h.files]
    rcases hcreate : names.create s.dirs path s.files.length with e | dirs
    · exact ⟨rfl, h⟩
    · obtain ⟨hnext, -⟩ := hcond ⟨hcreat, dirs, hcreate⟩
      have hnew : Agrees { s with files := s.files ++ [[]], dirs }
          { m with files := s.files ++ [[]], dirs } := ⟨rfl, rfl, h.fds⟩
      exact hnew.openFile hnext flags _
  · rw [hlookup] at hcond
    by_cases hexcl : flags &&& oCreat ≠ 0 ∧ flags &&& oExcl ≠ 0
    · simp only [if_pos hexcl]
      exact ⟨trivial, h⟩
    obtain ⟨hnext, htrunc⟩ := hcond hexcl
    simp only [if_neg hexcl]
    by_cases hflag : flags &&& oTrunc ≠ 0
    · -- the file is empty, and stays so
      have hempty : writeAt (s.file f) [] 0 = some [] := by
        rw [htrunc hflag f rfl]
        rfl
      simp only [if_pos hflag, hempty]
      have hsame : Agrees { s with files := s.files.set f [] }
          { m with files := s.files.set f [], dirs := s.dirs } := ⟨rfl, rfl, h.fds⟩
      rw [← h.files]
      exact hsame.openFile hnext flags f
    · simp only [if_neg hflag]
      exact h.openFile hnext flags f
  · exact ⟨rfl, h⟩

end

theorem seek_self (hdesc : m.descs[i]? = some d) : m.seek i d d.offset = m := by
  obtain ⟨hlt, rfl⟩ := List.getElem?_eq_some_iff.mp hdesc
  rw [Linux.seek, set_getElem_self]

theorem sysRead (h : Agrees s m) (hcond : Conforms names (s, m) (.read fd count)) :
    (s.sysRead fd count).1 = (m.exec names (.read fd count)).1 ∧
      Agrees (s.sysRead fd count).2 (m.exec names (.read fd count)).2 := by
  obtain ⟨i, d, hd, hcond⟩ := hcond
  obtain ⟨hfd, hdesc, -⟩ := h.of_desc hd
  rw [Kernel.sysRead, Linux.exec, hd]
  obtain rfl | hcount := eq_or_ne count 0
  · rw [if_pos rfl]
    simp only [take_zero, length_nil, Nat.add_zero]
    rw [seek_self hdesc]
    exact ⟨trivial, h⟩
  · obtain ⟨hentry, hlt⟩ := hcond.resolve_left hcount
    simp only [if_neg hcount, hentry, readAt_of_lt hlt]
    rw [h.file, h.files]
    exact ⟨rfl, h.moved hd _ _⟩

variable {offset : ℕ} {data : Bytes}

/-- The files after a write are the same. -/
theorem written (h : Agrees s m) (d : Description)
    (hlt : m.writePos d offset + data.length < 2 ^ 63) :
    ∃ vec, writeAt (s.file d.file) data (m.writePos d offset) = some vec ∧
      s.files.set d.file vec = m.written d data offset := by
  refine ⟨_, writeAt_of_lt hlt, ?_⟩
  rw [h.file, h.files, Linux.written]

theorem sysWrite (h : Agrees s m) (hcond : Conforms names (s, m) (.write fd data)) :
    (s.sysWrite fd data).1 = (m.exec names (.write fd data)).1 ∧
      Agrees (s.sysWrite fd data).2 (m.exec names (.write fd data)).2 := by
  obtain ⟨i, d, hd, hcond⟩ := hcond
  rw [Kernel.sysWrite, Linux.exec, hd]
  by_cases hcount : data.length = 0
  · simp only [if_pos hcount]
    exact ⟨trivial, h⟩
  · obtain ⟨hentry, hlt⟩ := hcond.resolve_left hcount
    obtain ⟨vec, hvec, hfiles⟩ := h.written d hlt
    simp only [if_neg hcount, hentry, hvec, hfiles]
    exact ⟨trivial, h.moved hd _ _⟩

/-- Both move to the same offset, or the offset is not valid. -/
theorem sought (h : Agrees s m) (hd : m.desc? fd = some (i, d)) (newOffset : ℤ) :
    let reply (s' : Kernel D M) : Reply × Kernel D M :=
      if newOffset < 0 then (.err .invalidArgument, s) else (.ret newOffset.toNat, s')
    let reply' : Reply × Linux D :=
      if newOffset < 0 then (.err .invalidArgument, m)
      else (.ret newOffset.toNat, m.seek i d newOffset.toNat)
    let s' := { s with table := s.table.set fd (.file d.file newOffset.toNat) }
    (reply s').1 = reply'.1 ∧ Agrees (reply s').2 reply'.2 := by
  by_cases hneg : newOffset < 0
  · simp only [if_pos hneg]
    exact ⟨trivial, h⟩
  · simp only [if_neg hneg]
    rw [h.files]
    exact ⟨trivial, h.moved hd _ _⟩

theorem asI64_of_lt {n : ℤ} (hmin : -2 ^ 63 ≤ n) (hmax : n < 2 ^ 63) : asI64 n = n := by
  rw [asI64, Int.bmod_def]
  omega

/-- The sum of a position and an offset, as the code computes it. -/
theorem asI64_add {n : ℕ} {offset : ℤ} (h : n < 2 ^ 63) (hmin : -2 ^ 63 ≤ n + offset)
    (hmax : n + offset < 2 ^ 63) : asI64 (asI64 n + offset) = n + offset := by
  have hn : asI64 n = n := asI64_of_lt (by omega) (by omega)
  rw [hn, asI64_of_lt hmin hmax]

variable (h : Agrees s m)

include h

theorem sysLseek {offset whence : ℤ} (hcond : Conforms names (s, m) (.lseek fd offset whence)) :
    (s.sysLseek fd offset whence).1 = (m.exec names (.lseek fd offset whence)).1 ∧
      Agrees (s.sysLseek fd offset whence).2 (m.exec names (.lseek fd offset whence)).2 := by
  obtain ⟨i, d, hd, hcur, hend⟩ := hcond
  obtain ⟨hfd, hdesc, curOff, hentry⟩ := h.of_desc hd
  rw [Kernel.sysLseek, Linux.exec, hd, hentry]
  by_cases h0 : whence = 0
  · simp only [if_pos h0]
    exact h.sought hd offset
  by_cases h1 : whence = 1
  · obtain ⟨hoff, hlt, hmin, hmax⟩ := hcur h1
    obtain rfl : curOff = d.offset := by
      rw [hentry] at hoff
      injection hoff with hoff
      injection hoff
    simp only [if_neg h0, if_pos h1, asI64_add hlt hmin hmax]
    exact h.sought hd _
  · by_cases h2 : whence = 2
    · obtain ⟨hlt, hmin, hmax⟩ := hend h2
      simp only [if_neg h0, if_neg h1, if_pos h2, asI64_add hlt hmin hmax]
      rw [h.file]
      exact h.sought hd _
    · simp only [if_neg h0, if_neg h1, if_neg h2]
      exact ⟨trivial, h⟩

theorem sysPread64 (hcond : Conforms names (s, m) (.pread64 fd count offset)) :
    (s.sysPread64 fd count offset).1 = (m.exec names (.pread64 fd count offset)).1 ∧
      Agrees (s.sysPread64 fd count offset).2 (m.exec names (.pread64 fd count offset)).2 := by
  obtain ⟨i, d, hd, hcond⟩ := hcond
  obtain ⟨-, -, curOff, hentry⟩ := h.of_desc hd
  rw [Kernel.sysPread64, Linux.exec, hd, hentry]
  obtain rfl | hcount := eq_or_ne count 0
  · simp only [if_true, take_zero]
    exact ⟨trivial, h⟩
  · simp only [if_neg hcount, readAt_of_lt (hcond.resolve_left hcount)]
    rw [h.file]
    exact ⟨rfl, h⟩

theorem sysPwrite64 (hcond : Conforms names (s, m) (.pwrite64 fd data offset)) :
    (s.sysPwrite64 fd data offset).1 = (m.exec names (.pwrite64 fd data offset)).1 ∧
      Agrees (s.sysPwrite64 fd data offset).2 (m.exec names (.pwrite64 fd data offset)).2 := by
  obtain ⟨i, d, hd, hcond⟩ := hcond
  obtain ⟨-, -, curOff, hentry⟩ := h.of_desc hd
  rw [Kernel.sysPwrite64, Linux.exec, hd, hentry]
  by_cases hcount : data.length = 0
  · simp only [if_pos hcount]
    exact ⟨trivial, h⟩
  obtain ⟨hpos, hlt⟩ := hcond.resolve_left hcount
  rw [hpos] at hlt
  obtain ⟨vec, hvec, hfiles⟩ := h.written d hlt
  rw [← hpos] at hvec
  simp only [if_neg hcount, hvec, hfiles]
  exact ⟨trivial, rfl, h.dirs, h.fds⟩

theorem sysDup (hcond : Conforms names (s, m) (.dup fd)) :
    (s.sysDup fd).1 = (m.exec names (.dup fd)).1 ∧
      Agrees (s.sysDup fd).2 (m.exec names (.dup fd)).2 := by
  obtain ⟨hopen, hnext⟩ := hcond
  obtain ⟨target, hfd⟩ := ne_none_iff_exists'.mp hopen
  obtain ⟨r, hr, href⟩ := h.duplicate hfd
  simp only [Kernel.sysDup, dup, Linux.exec, hfd, hr]
  refine ⟨congrArg Reply.ret (lowest_eq hnext.1 hnext.2).symm, ?_⟩
  exact h.opened hnext (SameFiles.refl _) href

/-- The entry of the number onto which a descriptor is duplicated. -/
theorem dup2_self (newfd : ℕ) (hfd : m.fds.find? fd = some target) :
    (s.table.dup2 fd newfd).1 = some newfd ∧
      Refers m ((s.table.dup2 fd newfd).2.get newfd) target := by
  obtain ⟨r, hr, href⟩ := h.duplicate hfd
  rw [dup2]
  by_cases hsame : fd = newfd
  · obtain ⟨r', hr', -⟩ := bind_eq_some_iff.mp hr
    have hsome : (s.table.get fd).isSome = true := by
      rw [hr']
      rfl
    rw [if_pos hsame, if_pos hsome, ← hsame]
    exact ⟨rfl, h.fds fd target hfd⟩
  · rw [if_neg hsame, hr]
    refine ⟨rfl, ?_⟩
    rw [ResourceTable.get, find?_insert_self]
    exact href

theorem sysDup2 {newfd : ℕ} (hcond : Conforms names (s, m) (.dup2 fd newfd)) :
    (s.sysDup2 fd newfd).1 = (m.exec names (.dup2 fd newfd)).1 ∧
      Agrees (s.sysDup2 fd newfd).2 (m.exec names (.dup2 fd newfd)).2 := by
  obtain ⟨target, hfd⟩ := ne_none_iff_exists'.mp hcond
  obtain ⟨hret, hself⟩ := h.dup2_self newfd hfd
  rw [Kernel.sysDup2, Linux.exec, hfd]
  rcases hdup : s.table.dup2 fd newfd with ⟨ret, table⟩
  rw [hdup] at hret hself
  obtain rfl : ret = some newfd := hret
  refine ⟨rfl, h.files, h.dirs, fun fd' target' hfd' => ?_⟩
  show Refers m (table.get fd') target'
  obtain rfl | heq := eq_or_ne fd' newfd
  · rw [find?_insert_self] at hfd'
    obtain rfl : target = target' := some.inj hfd'
    exact hself
  · rw [find?_insert_of_ne _ _ heq] at hfd'
    have hget : (s.table.dup2 fd newfd).2.get fd' = s.table.get fd' := s.table.get_dup2_of_ne heq
    rw [hdup] at hget
    rw [hget]
    exact h.fds fd' target' hfd'

theorem sysClose (hcond : Conforms names (s, m) (.close fd)) :
    (s.sysClose fd).1 = (m.exec names (.close fd)).1 ∧
      Agrees (s.sysClose fd).2 (m.exec names (.close fd)).2 := by
  obtain ⟨target, hfd⟩ := ne_none_iff_exists'.mp hcond
  rw [Kernel.sysClose, Linux.exec, hfd]
  by_cases hstdio : isStdio fd = true
  · -- the entry stays, under a number that is closed in the model
    rw [if_pos hstdio]
    refine ⟨rfl, h.files, h.dirs, fun fd' target' hfd' => ?_⟩
    exact h.fds fd' target' (m.fds.find?_of_remove hfd').2
  rw [if_neg hstdio]
  have hret := s.table.close_of_not_stdio (Bool.eq_false_of_not_eq_true hstdio)
  obtain ⟨r, hr⟩ : ∃ r, s.table.get fd = some r := by
    obtain ⟨r, hr, -⟩ := h.duplicate hfd
    obtain ⟨r', hr', -⟩ := bind_eq_some_iff.mp hr
    exact ⟨r', hr'⟩
  rcases hclose : s.table.close fd with ⟨ret, table⟩
  rw [hclose, hr] at hret
  obtain rfl : ret = some r := hret
  refine ⟨rfl, h.files, h.dirs, fun fd' target' hfd' => ?_⟩
  obtain ⟨hne, hfd'⟩ := m.fds.find?_of_remove hfd'
  have hget := s.table.get_close_of_ne hne
  rw [hclose] at hget
  show Refers m (table.get fd') target'
  rw [hget]
  exact h.fds fd' target' hfd'

/-- **What one call does.** -/
theorem exec {call : SysCall P} (hcond : Conforms names (s, m) call) :
    (call.exec names s).1 = (m.exec names call).1 ∧
      Agrees (call.exec names s).2 (m.exec names call).2 := by
  cases call with
  | «open» path flags => exact h.sysOpen names hcond
  | read fd count => exact h.sysRead names hcond
  | write fd data => exact h.sysWrite names hcond
  | lseek fd offset whence => exact h.sysLseek names hcond
  | pread64 fd count offset => exact h.sysPread64 names hcond
  | pwrite64 fd data offset => exact h.sysPwrite64 names hcond
  | dup fd => exact h.sysDup names hcond
  | dup2 oldfd newfd => exact h.sysDup2 names hcond
  | close fd => exact h.sysClose names hcond

end Agrees

/-! ### Runs -/

/-- The kernel when the task starts. -/
def Kernel.start (files : List Bytes) (dirs : D) : Kernel D M := ⟨files, dirs, .new⟩

/-- The model when the task starts: the standard streams are open. -/
def Linux.start (files : List Bytes) (dirs : D) : Linux D where
  files := files
  dirs := dirs
  descs := []
  fds := ((OrdMap.empty.insert 0 .stdin).insert 1 .stdout).insert 2 .stderr

/-- The kernel after a call, and what the call returns. -/
def Kernel.step (s : Kernel D M) (call : SysCall P) : Kernel D M := (call.exec names s).2

@[inherit_doc Kernel.step]
def Kernel.reply (s : Kernel D M) (call : SysCall P) : Reply := (call.exec names s).1

/-- The model after a call, and what the call returns. -/
def Linux.step (m : Linux D) (call : SysCall P) : Linux D := (m.exec names call).2

@[inherit_doc Linux.step]
def Linux.reply (m : Linux D) (call : SysCall P) : Reply := (m.exec names call).1

theorem Agrees.start (files : List Bytes) (dirs : D) :
    Agrees (Kernel.start files dirs : Kernel D M) (Linux.start files dirs) := by
  refine ⟨rfl, rfl, fun fd target hfd => ?_⟩
  have hmem : (fd, target) ∈ [(0, Target.stdin), (1, .stdout), (2, .stderr)] :=
    find?_eq_some.mp hfd
  simp only [mem_cons, not_mem_nil, or_false] at hmem
  rcases hmem with ⟨rfl, rfl⟩ | ⟨rfl, rfl⟩ | ⟨rfl, rfl⟩
  · rfl
  · rfl
  · rfl

/-- **The calls of a task do what Linux does.** In every run whose calls conform, the replies and the
files are those of the model. -/
theorem calls_as_linux (files : List Bytes) (dirs : D) (calls : List (SysCall P))
    (h : Guarded (both (Kernel.step names) (Linux.step names)) (Conforms names)
      ((Kernel.start files dirs : Kernel D M), Linux.start files dirs) calls) :
    outputs (Kernel.step names) (Kernel.reply names) (Kernel.start files dirs : Kernel D M) calls =
      outputs (Linux.step names) (Linux.reply names) (Linux.start files dirs) calls ∧
    (run (Kernel.step names) (Kernel.start files dirs : Kernel D M) calls).files =
      (run (Linux.step names) (Linux.start files dirs) calls).files := by
  obtain ⟨houts, hrun⟩ := h.both_eq (fun s m call hs hcond => hs.exec names hcond)
    (Agrees.start files dirs)
  exact ⟨houts, hrun.files⟩

end Exec

/-- There is one path, under which there is a file or not. -/
def onePath : Names Bool Unit where
  lookup present _ := if present then some (.file 0) else none
  create _ _ _ := .ok true

/-- A file is created, written through one descriptor, read through a duplicate and extended. -/
def conforming : List (SysCall Unit) :=
  [.open () oCreat, .write 3 [7, 8, 9], .lseek 3 (-2) 1, .dup 3, .read 4 1, .pwrite64 3 [1] 4, .close 4]

theorem calls_as_linux_once :
    outputs (Kernel.step onePath) (Kernel.reply onePath) (Kernel.start [] false : Kernel Bool Unit)
        conforming =
      outputs (Linux.step onePath) (Linux.reply onePath) (Linux.start [] false) conforming ∧
    (run (Kernel.step onePath) (Kernel.start [] false : Kernel Bool Unit) conforming).files =
      (run (Linux.step onePath) (Linux.start [] false) conforming).files := by
  refine calls_as_linux onePath [] false conforming ⟨?_, ?_, ?_, ?_, ?_, ?_, ?_, trivial⟩
  · exact fun _ => ⟨⟨by decide, by decide⟩, fun h => absurd rfl h⟩
  · exact ⟨0, ⟨0, 0, false⟩, by decide, .inr ⟨by decide, by decide⟩⟩
  · exact ⟨0, ⟨0, 3, false⟩, by decide, fun _ => ⟨by decide, by decide⟩, fun h => absurd h (by decide)⟩
  · exact ⟨by decide, by decide, by decide⟩
  · exact ⟨0, ⟨0, 1, false⟩, by decide, .inr ⟨by decide, by decide⟩⟩
  · exact ⟨0, ⟨0, 2, false⟩, by decide, .inr ⟨by decide, by decide⟩⟩
  · rw [Conforms]
    decide

/-- A file is opened, its descriptor duplicated, and one byte read through each descriptor. -/
def readTwice : List (SysCall Unit) := [.open () 0, .dup 3, .read 3 1, .read 4 1]

/-- A duplicate has an offset of its own: the second read returns the first byte again. -/
theorem dup_own_offset :
    outputs (Kernel.step onePath) (Kernel.reply onePath) (Kernel.start [[7, 8]] true : Kernel Bool Unit)
        readTwice = [.ret 3, .ret 4, .data [7], .data [7]] ∧
    outputs (Linux.step onePath) (Linux.reply onePath) (Linux.start [[7, 8]] true) readTwice =
      [.ret 3, .ret 4, .data [7], .data [8]] := by
  decide +kernel

end Maios.Syscall
