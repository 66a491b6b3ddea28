import Maios.Library.Overwrite
import Maios.Syscall.Resource

/-!
# System calls on files

The calls by which a task opens, reads, writes, positions, duplicates and closes files in memory. A
file is a vector of bytes. An entry of the resource table for a file has the file and an offset.

How paths are resolved and files entered in directories is given by `Names`. Reading from and writing
to the standard streams goes to the console, which is not modelled: such a call has the reply
`console`. Buffers are taken to be there: a read returns the bytes it would copy to its buffer.
-/

namespace Maios.Syscall

abbrev Bytes := List UInt8

/-- The errors of the calls below. -/
inductive SyscallError where
  | invalidArgument
  | badFileDescriptor
  | notFound
  | ioError
  | isADirectory
  | fileExists
  | illegalSeek
  deriving DecidableEq

/-! ### Files in memory -/

namespace HeapFile

/-- The bytes read into a buffer of length `len`; there must be one at the offset. -/
def readAt (vec : Bytes) (len offset : ℕ) : Option Bytes :=
  if vec.length ≤ offset then none else some ((vec.drop offset).take len)

/-- The contents after a write, unless the vector would get too long for its capacity. -/
def writeAt (vec buffer : Bytes) (offset : ℕ) : Option Bytes :=
  let finalLen := offset + buffer.length
  if 2 ^ 63 ≤ finalLen then none
  else
    let grown := if vec.length < finalLen then vec ++ List.replicate (finalLen - vec.length) 0 else vec
    some (grown.take offset ++ buffer ++ grown.drop finalLen)

theorem readAt_of_lt {vec : Bytes} {offset : ℕ} (h : offset < vec.length) (len : ℕ) :
    readAt vec len offset = some ((vec.drop offset).take len) := if_neg (not_le.mpr h)

theorem writeAt_of_lt {vec buffer : Bytes} {offset : ℕ} (h : offset + buffer.length < 2 ^ 63) :
    writeAt vec buffer offset = some (overwrite 0 vec buffer offset) := by
  refine (if_neg (not_le.mpr h)).trans (congrArg some ?_)
  exact copy_grown 0 vec buffer offset _ rfl

end HeapFile

/-! ### The calls -/

/-- What a path leads to. Files are known by their place in the list of all files. -/
inductive Node where
  | file (f : ℕ)
  | dir

/-- How paths `P` are resolved in directories `D`, and how a file is entered under a path. -/
structure Names (D P : Type) where
  lookup : D → P → Option Node
  create : D → P → ℕ → Except SyscallError D

/-- The files, the directories and the table of the task. -/
structure Kernel (D M : Type) where
  files : List Bytes
  dirs : D
  table : ResourceTable ℕ M

inductive Reply where
  | ret (n : ℕ)
  | data (bytes : Bytes)
  | err (e : SyscallError)
  | console
  | panic
  deriving DecidableEq

def oCreat : ℕ := 0x0040
def oExcl : ℕ := 0x0080
def oTrunc : ℕ := 0x0200
def oAppend : ℕ := 0x0400

/-- A 64-bit number read as a signed one. -/
def asI64 (n : ℤ) : ℤ := n.bmod (2 ^ 64)

section Calls

variable {D M P : Type} (names : Names D P)

namespace Kernel

variable (s : Kernel D M)

def file (f : ℕ) : Bytes := s.files.getD f []

/-- The last part of `sys_open`: the position and the descriptor. -/
def openFile (flags f : ℕ) : Reply × Kernel D M :=
  let offset := if flags &&& oAppend ≠ 0 then (s.file f).length else 0
  (.ret (s.table.allocFd (.file f offset)).1,
    { s with table := (s.table.allocFd (.file f offset)).2 })

def sysOpen (path : P) (flags : ℕ) : Reply × Kernel D M :=
  match names.lookup s.dirs path with
  | some (.file f) =>
    if flags &&& oCreat ≠ 0 ∧ flags &&& oExcl ≠ 0 then (.err .fileExists, s)
    else if flags &&& oTrunc ≠ 0 then
      -- an empty write at the start, which does not shorten the file
      match HeapFile.writeAt (s.file f) [] 0 with
      | some vec => openFile { s with files := s.files.set f vec } flags f
      | none => (.panic, s)
    else s.openFile flags f
  | some .dir => (.err .isADirectory, s)
  | none =>
    if flags &&& oCreat = 0 then (.err .notFound, s)
    else
      match names.create s.dirs path s.files.length with
      | .ok dirs => openFile { s with files := s.files ++ [[]], dirs } flags s.files.length
      | .error e => (.err e, s)

def sysRead (fd count : ℕ) : Reply × Kernel D M :=
  if count = 0 then (.data [], s)
  else
    match s.table.get fd with
    | some .stdin => (.console, s)
    | some (.file f offset) =>
      match HeapFile.readAt (s.file f) count offset with
      | some bytes =>
        (.data bytes, { s with table := s.table.set fd (.file f (offset + bytes.length)) })
      | none => (.err .ioError, s)
    | _ => (.err .badFileDescriptor, s)

def sysWrite (fd : ℕ) (data : Bytes) : Reply × Kernel D M :=
  if data.length = 0 then (.ret 0, s)
  else
    match s.table.get fd with
    | some .stdout => (.console, s)
    | some .stderr => (.console, s)
    | some (.file f offset) =>
      match HeapFile.writeAt (s.file f) data offset with
      | some vec =>
        (.ret data.length, { s with
          files := s.files.set f vec, table := s.table.set fd (.file f (offset + data.length)) })
      | none => (.panic, s)
    | _ => (.err .badFileDescriptor, s)

def sysLseek (fd : ℕ) (offset : ℤ) (whence : ℤ) : Reply × Kernel D M :=
  match s.table.get fd with
  | none => (.err .badFileDescriptor, s)
  | some (.file f curOff) =>
    let newOffset :=
      if whence = 0 then some offset
      else if whence = 1 then some (asI64 (asI64 curOff + offset))
      else if whence = 2 then some (asI64 (asI64 (s.file f).length + offset))
      else none
    match newOffset with
    | none => (.err .invalidArgument, s)
    | some newOffset =>
      if newOffset < 0 then (.err .invalidArgument, s)
      else (.ret newOffset.toNat, { s with table := s.table.set fd (.file f newOffset.toNat) })
  | _ => (.err .illegalSeek, s)

def sysPread64 (fd count offset : ℕ) : Reply × Kernel D M :=
  if count = 0 then (.data [], s)
  else
    match s.table.get fd with
    | some (.file f _) =>
      match HeapFile.readAt (s.file f) count offset with
      | some bytes => (.data bytes, s)
      | none => (.err .ioError, s)
    | some _ => (.err .illegalSeek, s)
    | none => (.err .badFileDescriptor, s)

def sysPwrite64 (fd : ℕ) (data : Bytes) (offset : ℕ) : Reply × Kernel D M :=
  if data.length = 0 then (.ret 0, s)
  else
    match s.table.get fd with
    | some (.file f _) =>
      match HeapFile.writeAt (s.file f) data offset with
      | some vec => (.ret data.length, { s with files := s.files.set f vec })
      | none => (.panic, s)
    | some _ => (.err .illegalSeek, s)
    | none => (.err .badFileDescriptor, s)

def sysDup (fd : ℕ) : Reply × Kernel D M :=
  match s.table.dup fd with
  | (some newFd, table) => (.ret newFd, { s with table })
  | (none, table) => (.err .badFileDescriptor, { s with table })

def sysDup2 (oldfd newfd : ℕ) : Reply × Kernel D M :=
  match s.table.dup2 oldfd newfd with
  | (some fd, table) => (.ret fd, { s with table })
  | (none, table) => (.err .badFileDescriptor, { s with table })

def sysClose (handle : ℕ) : Reply × Kernel D M :=
  -- the standard streams are protected: success without an effect
  if ResourceTable.isStdio handle then (.ret 0, s)
  else
    match s.table.close handle with
    | (some _, table) => (.ret 0, { s with table })
    | (none, table) => (.err .badFileDescriptor, { s with table })

end Kernel

/-- The calls of a task, with the paths `P`. -/
inductive SysCall (P : Type) where
  | open (path : P) (flags : ℕ)
  | read (fd count : ℕ)
  | write (fd : ℕ) (data : Bytes)
  | lseek (fd : ℕ) (offset whence : ℤ)
  | pread64 (fd count offset : ℕ)
  | pwrite64 (fd : ℕ) (data : Bytes) (offset : ℕ)
  | dup (fd : ℕ)
  | dup2 (oldfd newfd : ℕ)
  | close (fd : ℕ)

def SysCall.exec (s : Kernel D M) : SysCall P → Reply × Kernel D M
  | .open path flags => s.sysOpen names path flags
  | .read fd count => s.sysRead fd count
  | .write fd data => s.sysWrite fd data
  | .lseek fd offset whence => s.sysLseek fd offset whence
  | .pread64 fd count offset => s.sysPread64 fd count offset
  | .pwrite64 fd data offset => s.sysPwrite64 fd data offset
  | .dup fd => s.sysDup fd
  | .dup2 oldfd newfd => s.sysDup2 oldfd newfd
  | .close fd => s.sysClose fd

end Calls

end Maios.Syscall
