import Maios.Library.ByteMemory
import Maios.Pe.Loader

/-!
# Resolving PE imports

`resolve_imports` walks the import descriptors of a file and the thunks of each descriptor. For each
of the imports it writes a stub of machine code into a page that it has allocated, and the address
of the stub into the import address table of the loaded image.

Everything is found by relative virtual addresses, which the function takes as offsets in the file;
`importsAt` is the walk, over the bytes of a file or of an image. What is written goes through raw
addresses, so a call gives the log of its writes.
-/

namespace Maios.Pe

open List Outcome

/-! ### Stubs -/

inductive StubKind
  | syscall (nr : ℕ)
  | returnValue (value : ℕ)
  | unknown
deriving DecidableEq, Repr

def ntdllStubs : List (String × StubKind) :=
  [("NtCreateFile", .syscall 0x0055), ("NtReadFile", .syscall 0x0006),
    ("NtWriteFile", .syscall 0x0008), ("NtClose", .syscall 0x000F),
    ("NtAllocateVirtualMemory", .syscall 0x0018), ("NtFreeVirtualMemory", .syscall 0x001E),
    ("NtProtectVirtualMemory", .syscall 0x0050), ("NtTerminateProcess", .syscall 0x002C),
    ("NtQueryPerformanceCounter", .syscall 0x0031), ("NtQueryInformationFile", .syscall 0x0011),
    ("NtQuerySystemInformation", .syscall 0x0036), ("NtQueryInformationProcess", .syscall 0x0019),
    ("RtlInitUnicodeString", .returnValue 0), ("RtlAllocateHeap", .returnValue 0),
    ("RtlFreeHeap", .returnValue 1)]

def kernel32Stubs : List (String × StubKind) :=
  [("ExitProcess", .syscall 0x002C), ("WriteFile", .syscall 0x0008), ("ReadFile", .syscall 0x0006),
    ("CloseHandle", .syscall 0x000F), ("CreateFileA", .syscall 0x0055),
    ("CreateFileW", .syscall 0x0055), ("VirtualAlloc", .syscall 0x0018),
    ("VirtualFree", .syscall 0x001E), ("VirtualProtect", .syscall 0x0050),
    ("WriteConsoleA", .syscall 0x0008), ("WriteConsoleW", .syscall 0x0008),
    ("QueryPerformanceCounter", .syscall 0x0031), ("QueryPerformanceFrequency", .syscall 0x0031),
    ("GetStdHandle", .returnValue 0xFFFFFFFFFFFFFFF5), ("GetLastError", .returnValue 0),
    ("SetLastError", .returnValue 0), ("GetCurrentProcess", .returnValue 0xFFFFFFFFFFFFFFFF),
    ("GetCurrentProcessId", .returnValue 1), ("GetCurrentThreadId", .returnValue 1),
    ("GetModuleHandleA", .returnValue 0), ("GetModuleHandleW", .returnValue 0),
    ("GetProcAddress", .returnValue 0), ("HeapCreate", .returnValue 0x1000),
    ("HeapAlloc", .returnValue 0), ("HeapFree", .returnValue 1),
    ("GetProcessHeap", .returnValue 0x1000), ("IsDebuggerPresent", .returnValue 0),
    ("GetCommandLineA", .returnValue 0), ("GetCommandLineW", .returnValue 0),
    ("GetSystemTimeAsFileTime", .returnValue 0),
    ("InitializeCriticalSectionAndSpinCount", .returnValue 1),
    ("DeleteCriticalSection", .returnValue 0), ("EnterCriticalSection", .returnValue 0),
    ("LeaveCriticalSection", .returnValue 0), ("TlsAlloc", .returnValue 0),
    ("TlsSetValue", .returnValue 1), ("TlsGetValue", .returnValue 0), ("FlsAlloc", .returnValue 0),
    ("FlsSetValue", .returnValue 1), ("FlsGetValue", .returnValue 0),
    ("SetUnhandledExceptionFilter", .returnValue 0), ("UnhandledExceptionFilter", .returnValue 1),
    ("IsProcessorFeaturePresent", .returnValue 0)]

/-- The name has at least `len` bytes and begins, without regard to case, with the letters. -/
def startsLike (name : String) (len : ℕ) (letters : List UInt8) : Bool :=
  let bytes := name.toUTF8.toList
  len ≤ bytes.length && (bytes.take letters.length).map (· ||| 0x20) == letters

/-- Of the second library only the first four letters are compared. -/
def lookupWin32Stub (dllName funcName : String) : StubKind :=
  if startsLike dllName 5 [0x6e, 0x74, 0x64, 0x6c, 0x6c] then
    (ntdllStubs.lookup funcName).getD .unknown
  else if startsLike dllName 8 [0x6b, 0x65, 0x72, 0x6e] then
    (kernel32Stubs.lookup funcName).getD .unknown
  else .unknown

/-- `mov r10, rcx; mov eax, nr; syscall; ret; nop` -/
def generateSyscallStub (nr : ℕ) : Bytes :=
  [0x49, 0x89, 0xCA, 0xB8] ++ leBytes 2 nr ++ [0x00, 0x00, 0x0F, 0x05, 0xC3, 0x90]

/-- `mov rax, value; ret; nop` -/
def generateReturnValueStub (value : ℕ) : Bytes :=
  [0x48, 0xB8] ++ leBytes 8 value ++ [0xC3, 0x90]

namespace StubKind

def stub : StubKind → Bytes
  | syscall nr => generateSyscallStub nr
  | returnValue value => generateReturnValueStub value
  | unknown => generateReturnValueStub 0

def writeError : StubKind → String
  | syscall _ => "pe_loader: failed to write stub"
  | returnValue _ => "pe_loader: failed to write return stub"
  | unknown => "pe_loader: failed to write unknown stub"

@[simp] theorem length_stub (kind : StubKind) : kind.stub.length = 12 := by
  cases kind <;> simp [stub, generateSyscallStub, generateReturnValueStub]

end StubKind

/-! ### The walk over the imports -/

structure ImportDescriptor where
  originalFirstThunk : ℕ
  nameRva : ℕ
  firstThunk : ℕ
deriving DecidableEq, Repr

def sizeOfImportDescriptor : ℕ := 20

def importDescriptorAt (data : Bytes) (off : ℕ) : ImportDescriptor where
  originalFirstThunk := leAt data off 4
  nameRva := leAt data (off + 12) 4
  firstThunk := leAt data (off + 16) 4

def readRvaString (data : Bytes) (rva : ℕ) : Option String :=
  if data.length ≤ rva then none
  else
    let slice := data.drop rva
    let stop := (slice.findIdx? (· == 0)).getD (min slice.length 256)
    String.fromUTF8? ⟨(slice.take stop).toArray⟩

/-- The descriptors from an offset on, up to the one that ends the list or to the end of the data,
with a bound on their number. -/
def descriptorsFrom (data : Bytes) : ℕ → ℕ → List ImportDescriptor
  | 0, _ => []
  | fuel + 1, off =>
    if data.length < off + sizeOfImportDescriptor then []
    else
      let desc := importDescriptorAt data off
      if desc.firstThunk = 0 ∧ desc.nameRva = 0 then []
      else desc :: descriptorsFrom data fuel (off + sizeOfImportDescriptor)

/-- The thunks from an offset on, up to the one that ends the list or to the end of the data, with a
bound on their number. -/
def thunksFrom (data : Bytes) : ℕ → ℕ → List ℕ
  | 0, _ => []
  | fuel + 1, off =>
    if data.length < off + 8 then []
    else
      let thunk := leAt data off 8
      if thunk = 0 then [] else thunk :: thunksFrom data fuel (off + 8)

/-- A bound by the length of the data ends neither walk before its end. -/
theorem descriptorsFrom_fuel {data : Bytes} {fuel off : ℕ} (h : data.length ≤ fuel + off) :
    descriptorsFrom data (fuel + 1) off = descriptorsFrom data fuel off := by
  induction fuel generalizing off with
  | zero =>
    have hend : data.length < off + sizeOfImportDescriptor := by
      simp only [sizeOfImportDescriptor]
      omega
    simp only [descriptorsFrom, if_pos hend]
  | succ fuel ih =>
    have hnext : data.length ≤ fuel + (off + sizeOfImportDescriptor) := by
      simp only [sizeOfImportDescriptor]
      omega
    rw [descriptorsFrom, ih hnext, descriptorsFrom]

theorem thunksFrom_fuel {data : Bytes} {fuel off : ℕ} (h : data.length ≤ fuel + off) :
    thunksFrom data (fuel + 1) off = thunksFrom data fuel off := by
  induction fuel generalizing off with
  | zero =>
    have hend : data.length < off + 8 := by omega
    simp only [thunksFrom, if_pos hend]
  | succ fuel ih => rw [thunksFrom, ih (by omega), thunksFrom]

namespace ImportDescriptor

variable (data : Bytes) (desc : ImportDescriptor)

def dllName : String := (readRvaString data desc.nameRva).getD "???"

/-- The thunks of the lookup table or, if there is none, of the address table. -/
def thunks : List ℕ :=
  thunksFrom data data.length
    (if desc.originalFirstThunk ≠ 0 then desc.originalFirstThunk else desc.firstThunk)

end ImportDescriptor

/-- The name of the function for a thunk; an import by ordinal has none. -/
def thunkName (data : Bytes) (thunk : ℕ) : String :=
  (if thunk &&& 2 ^ 63 ≠ 0 then none else readRvaString data ((thunk &&& 0x7FFFFFFF) + 2)).getD
    "(ordinal)"

/-- An import: its slot in the address table, and what stub it gets. -/
structure Import where
  slot : ℕ
  kind : StubKind
deriving DecidableEq, Repr

/-- The imports for some thunks, the first of which has the number `idx`. -/
def importsOfThunks (data : Bytes) (desc : ImportDescriptor) : ℕ → List ℕ → List Import
  | _, [] => []
  | idx, thunk :: rest =>
    ⟨desc.firstThunk + idx * 8, lookupWin32Stub (desc.dllName data) (thunkName data thunk)⟩ ::
      importsOfThunks data desc (idx + 1) rest

def ImportDescriptor.imports (data : Bytes) (desc : ImportDescriptor) : List Import :=
  importsOfThunks data desc 0 (desc.thunks data)

/-- All imports of the directory at an address. -/
def importsAt (data : Bytes) (rva : ℕ) : List Import :=
  (descriptorsFrom data data.length rva).flatMap (ImportDescriptor.imports data)

/-- Where the import directory is, if there is one. Its entry in the header is read without a check
of the length, as the one of the relocations is. -/
def importDirectory (data behind : Bytes) (h : Header) : Option ℕ :=
  if h.numberOfRvaAndSizes < 2 then none
  else
    let ddOff := h.optOff + sizeOfOptionalHeader64 + 1 * 8
    let importRva := leAt (data ++ behind) ddOff 4
    let importSize := leAt (data ++ behind) (ddOff + 4) 4
    if importRva = 0 ∨ importSize = 0 then none else some importRva

/-! ### Resolving -/

/-- How far the stub page is filled, and what has been written. -/
structure ResolveState where
  stubOffset : ℕ
  log : List ByteWrite
deriving DecidableEq, Repr

/-- The loop over the thunks of a descriptor, of which the first has the number `idx`. It ends
without an error when the page is full. -/
def resolveThunks (data : Bytes) (page : Mapping) (imageBase : ℕ) (desc : ImportDescriptor) :
    ℕ → List ℕ → ResolveState → Outcome String ResolveState
  | _, [], s => .ok s
  | idx, thunk :: rest, s =>
    let kind := lookupWin32Stub (desc.dllName data) (thunkName data thunk)
    if 4096 < s.stubOffset + kind.stub.length then .ok s
    else if page.contents.length < s.stubOffset + kind.stub.length then .err kind.writeError
    else
      let stubAddr := page.start + s.stubOffset
      let iatVa := wrap (imageBase + desc.firstThunk + idx * 8)
      resolveThunks data page imageBase desc (idx + 1) rest
        ⟨s.stubOffset + kind.stub.length,
          s.log ++ [(stubAddr, kind.stub), (iatVa, leBytes 8 stubAddr)]⟩

/-- What `resolve_imports` returns, and what it has written. -/
structure ResolvedImports where
  page : Mapping
  log : List ByteWrite

def resolveImports (data behind : Bytes) (source : MappingSource) (imageBase : ℕ) :
    Outcome String ResolvedImports :=
  .bind (parseHeader data) fun h =>
  match source.create 4096 with
  | none => .err "create_mapping(): couldn't create the mapping"
  | some page =>
    match importDirectory data behind h with
    | none => .ok ⟨page, []⟩
    | some importRva =>
      .bind (.foldl (fun s desc => resolveThunks data page imageBase desc 0 (desc.thunks data) s)
        ⟨0, []⟩ (descriptorsFrom data data.length importRva)) fun s =>
      .ok ⟨page, s.log⟩

/-! ### The log of a call -/

/-- The address that is patched for an import. -/
def Import.patchAddr (imageBase : ℕ) (imp : Import) : ℕ := wrap (imageBase + imp.slot)

/-- The writes for some imports, the first of which gets the stub number `k`. -/
def stubWrites (start imageBase : ℕ) : ℕ → List Import → List ByteWrite
  | _, [] => []
  | k, imp :: rest =>
    (start + 12 * k, imp.kind.stub) ::
      (imp.patchAddr imageBase, leBytes 8 (start + 12 * k)) ::
        stubWrites start imageBase (k + 1) rest

theorem stubWrites_append (start imageBase k : ℕ) (xs ys : List Import) :
    stubWrites start imageBase k (xs ++ ys) =
      stubWrites start imageBase k xs ++ stubWrites start imageBase (k + xs.length) ys := by
  induction xs generalizing k with
  | nil => rfl
  | cons x xs ih =>
    rw [cons_append, stubWrites, stubWrites, ih, length_cons, cons_append, cons_append]
    congr 4
    omega

/-- The number of stubs that fit into the page. -/
def stubLimit : ℕ := 341

variable {data : Bytes} {page : Mapping} {imageBase : ℕ}

/-- The loop over some thunks makes the stubs for as many imports as the page still has room for. -/
theorem resolveThunks_eq (hroom : 4096 ≤ page.contents.length) (desc : ImportDescriptor)
    (thunks : List ℕ) (idx k : ℕ) (hk : k ≤ stubLimit) (log : List ByteWrite) :
    let done := (importsOfThunks data desc idx thunks).take (stubLimit - k)
    resolveThunks data page imageBase desc idx thunks ⟨12 * k, log⟩ =
      .ok ⟨12 * (k + done.length), log ++ stubWrites page.start imageBase k done⟩ := by
  induction thunks generalizing idx k log with
  | nil => simp [resolveThunks, importsOfThunks, stubWrites]
  | cons thunk rest ih =>
    simp only [resolveThunks, importsOfThunks, StubKind.length_stub]
    by_cases hfull : 4096 < 12 * k + 12
    · have hlimit : stubLimit - k = 0 := by
        simp only [stubLimit] at hk ⊢
        omega
      simp [hfull, hlimit, stubWrites]
    have hlt : k < stubLimit := by
      simp only [stubLimit]
      omega
    have hnext : stubLimit - k = stubLimit - (k + 1) + 1 := by omega
    have hsucc : 12 * k + 12 = 12 * (k + 1) := by omega
    rw [if_neg hfull, if_neg (by omega), hsucc, ih (idx + 1) (k + 1) hlt, hnext,
      take_succ_cons, length_cons, stubWrites, Import.patchAddr, append_assoc,
      Nat.add_assoc imageBase, Nat.add_right_comm k 1, Nat.add_assoc k]
    rfl

/-- The loop over the descriptors. -/
theorem foldl_resolveThunks (hroom : 4096 ≤ page.contents.length) (descs : List ImportDescriptor)
    (k : ℕ) (hk : k ≤ stubLimit) (log : List ByteWrite) :
    let done := (descs.flatMap (ImportDescriptor.imports data)).take (stubLimit - k)
    foldl
        (fun s desc => resolveThunks data page imageBase desc 0 (desc.thunks data) s)
        ⟨12 * k, log⟩ descs =
      .ok ⟨12 * (k + done.length), log ++ stubWrites page.start imageBase k done⟩ := by
  induction descs generalizing k log with
  | nil => simp [Outcome.foldl, stubWrites]
  | cons desc rest ih =>
    have hle : ((desc.imports data).take (stubLimit - k)).length ≤ stubLimit - k :=
      length_take_le _ _
    have hrest : stubLimit - (k + ((desc.imports data).take (stubLimit - k)).length) =
        stubLimit - k - (desc.imports data).length := by
      rw [length_take]
      omega
    rw [Outcome.foldl, resolveThunks_eq hroom desc _ 0 k hk, ← ImportDescriptor.imports,
      bind_ok, ih _ (by omega), hrest]
    simp only [flatMap_cons, take_append, length_append, stubWrites_append,
      append_assoc, Nat.add_assoc]

/-- **The writes of a call** are those for the first imports that are found in the file. -/
theorem resolveImports_log {behind : Bytes} {source : MappingSource} {h : Header}
    {r : ResolvedImports} (hparse : parseHeader data = .ok h)
    (hres : resolveImports data behind source imageBase = .ok r) :
    r.log = stubWrites r.page.start imageBase 0
      (((importDirectory data behind h).elim [] (importsAt data)).take stubLimit) := by
  rw [resolveImports, hparse, bind_ok] at hres
  cases hcreate : source.create 4096 with
  | none =>
    rw [hcreate] at hres
    cases hres
  | some page => ?_
  have hroom : 4096 ≤ page.contents.length := (source.room _ _ hcreate).1
  rw [hcreate] at hres
  cases hdir : importDirectory data behind h with
  | none =>
    rw [hdir] at hres
    obtain rfl : ResolvedImports.mk page [] = r := by injection hres
    rfl
  | some importRva => ?_
  rw [hdir] at hres
  have hloop := @foldl_resolveThunks data page imageBase hroom
    (descriptorsFrom data data.length importRva) 0 (Nat.zero_le _) []
  dsimp only at hloop hres
  rw [hloop, bind_ok] at hres
  obtain rfl : ResolvedImports.mk page _ = r := by injection hres
  rfl

end Maios.Pe
