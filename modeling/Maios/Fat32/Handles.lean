import Maios.Fat32.Integrity
import Maios.Storage.BlockCache

/-!
# File handles

A handle of a file keeps the first cluster and the size that the entry of the file had when the handle
was made or last written through. A read goes to the clusters from that first one on. A write reads
the file in the same way, changes the bytes in memory and writes a new file under the name.

Through handles that know the current entry a file behaves as one array of bytes. The driver does not
see to this: a write through one handle changes the entry, and the other handles of the file are not
told.

As for a single write, nothing is asked of the rest of the volume. The file and its directory have
chains that can be walked, the two have no cluster in common, and the recorded size is not more than
the clusters hold; every write through a handle keeps it that way (`FileAt.written`).

## Main results

* `handles_one_array`: through handles that know its entry a file is one array of bytes.
* `handle_stale`: a handle does not see what is written through another one.
-/

namespace Maios.Fat32

open List

open Storage (IoError)

variable {p : Fat32Params} {d : Disk}

/-! ### Handles -/

/-- An open file, with the first cluster and the size of its entry. -/
structure Fat32File where
  name : Name
  firstCluster : ℕ
  size : ℕ
  dirCluster : ℕ
  deriving DecidableEq

structure Fat32Directory where
  name : Name
  cluster : ℕ

inductive FileOrDir where
  | file (f : Fat32File)
  | dir (d : Fat32Directory)

/-- A call of the driver whose errors are all the same to the caller. -/
def ofDriver {α : Type} (p : Fat32Params) (x : DriverM α) : Act Disk IoError α :=
  (x.run (onDisk p)).mapError fun _ => .invalidInput

/-- The bytes that are read into a buffer of length `len`. -/
def Fat32File.readAt (p : Fat32Params) (f : Fat32File) (len offset : ℕ) : Act Disk IoError Bytes :=
  if f.size ≤ offset then pure []
  else do
    let data ← ofDriver p (readFile p f.firstCluster f.size)
    let stop := min (offset + len) data.length
    -- the length `stop - offset` must not be negative
    if stop < offset then Act.crash
    else pure ((data.take stop).drop offset)

/-- The contents of a file with the buffer written at the offset. -/
def patched (data buf : Bytes) (offset : ℕ) : Bytes :=
  let required := offset + buf.length
  let data := if data.length < required then resize data required else data
  data.take offset ++ buf ++ data.drop required

/-- The existing data of a file, as a write reads it. -/
def Fat32File.existing (p : Fat32Params) (f : Fat32File) : Act Disk IoError Bytes :=
  if 2 ≤ f.firstCluster ∧ 0 < f.size then ofDriver p (readFile p f.firstCluster f.size) else pure []

/-- The handle with the first cluster and the size of the entry that is found now. If none is found, the
handle stays as it is. -/
def Fat32File.refresh (upper : Name → Name) (p : Fat32Params) (f : Fat32File) :
    Act Disk IoError Fat32File := fun d =>
  match (findEntry upper f.dirCluster f.name).run (onDisk p) d with
  | (.ok (some entry), d') =>
    (.ok { f with firstCluster := entry.cluster, size := entry.fileSize }, d')
  | (.panic, d') => (.panic, d')
  | (_, d') => (.ok f, d')

/-- Write the buffer and return its length, with the handle after the call. -/
def Fat32File.writeAt (upper : Name → Name) (p : Fat32Params) (f : Fat32File) (buf : Bytes)
    (offset : ℕ) : Act Disk IoError (ℕ × Fat32File) := do
  let data ← f.existing p
  ofDriver p (writeFile upper p f.dirCluster f.name (patched data buf offset))
  let f' ← f.refresh upper p
  pure (buf.length, f')

def Fat32Directory.get (upper : Name → Name) (p : Fat32Params) (dir : Fat32Directory) (name : Name) :
    Act Disk IoError (Option FileOrDir) := fun d =>
  match (findEntry upper dir.cluster name).run (onDisk p) d with
  | (.ok (some entry), d') =>
    if entry.isDir then (.ok (some (.dir ⟨name, entry.cluster⟩)), d')
    else (.ok (some (.file ⟨name, entry.cluster, entry.fileSize, dir.cluster⟩)), d')
  | (.panic, d') => (.panic, d')
  | (_, d') => (.ok none, d')

/-! ### Calls through handles -/

/-- A disk and the handles that have been made. -/
structure Session where
  disk : Disk
  files : List Fat32File

inductive HandleOp where
  | get (name : Name)
  | readAt (i len offset : ℕ)
  | writeAt (i : ℕ) (buf : Bytes) (offset : ℕ)

inductive Reply where
  | opened
  | noFile
  | read (r : Outcome IoError Bytes)
  | wrote (r : Outcome IoError ℕ)
  deriving DecidableEq

def HandleOp.exec (upper : Name → Name) (p : Fat32Params) (dir : Fat32Directory) (s : Session) :
    HandleOp → Reply × Session
  | .get name =>
    match dir.get upper p name s.disk with
    | (.ok (some (.file f)), d) => (.opened, ⟨d, s.files ++ [f]⟩)
    | (_, d) => (.noFile, ⟨d, s.files⟩)
  | .readAt i len offset =>
    match s.files[i]? with
    | some f => (.read (f.readAt p len offset s.disk).1, ⟨(f.readAt p len offset s.disk).2, s.files⟩)
    | none => (.noFile, s)
  | .writeAt i buf offset =>
    match s.files[i]? with
    | some f =>
      match f.writeAt upper p buf offset s.disk with
      | (.ok (n, f'), d) => (.wrote (.ok n), ⟨d, s.files.set i f'⟩)
      | (.err e, d) => (.wrote (.err e), ⟨d, s.files⟩)
      | (.panic, d) => (.wrote .panic, ⟨d, s.files⟩)
    | none => (.noFile, s)

/-- The handle knows the entry that is found under its name. -/
def Fat32File.Current (upper : Name → Name) (p : Fat32Params) (d : Disk) (f : Fat32File) : Prop :=
  ∃ e, ((findEntry upper f.dirCluster f.name).run (onDisk p) d).1 = .ok (some e) ∧
    f.firstCluster = e.cluster ∧ f.size = e.fileSize

/-- A file of this size can be written through the handle: it is not too large, there are enough free
clusters once its own have been freed, and it is written to the slot at which its name is found. -/
def Fat32File.Writable (upper : Name → Name) (p : Fat32Params) (v : Vol p.bytesPerCluster)
    (f : Fat32File) (size : ℕ) : Prop :=
  size < 2 ^ 32 ∧ size ≤ p.bytesPerCluster * maxChain ∧
    (∀ olds needed, Clusters p v.fat f.firstCluster olds →
      clustersNeeded p.bytesPerCluster size = some needed →
        needed ≤ (v.freeAll olds).freeCount p) ∧
    ∀ ds found, Chain p v.fat f.dirCluster ds → findSlot upper f.name (v.slots ds) = some found →
      targetSlot f.name (v.slots ds) = .hit found.1

/-- A handle is made for the file of this name, and reads and writes go through handles that know its
entry. -/
def HandleOp.Guard (upper : Name → Name) (p : Fat32Params) (name : Name) (s : Session) :
    HandleOp → Prop
  | .get n => upper n = upper name
  | .readAt i _ _ => ∃ f, s.files[i]? = some f ∧ f.Current upper p s.disk
  | .writeAt i buf offset => ∃ f, s.files[i]? = some f ∧ f.Current upper p s.disk ∧
      f.Writable upper p (view p s.disk) (max f.size (offset + buf.length))

/-! ### The array of bytes -/

/-- The array with the buffer written at the offset, and zeros in a gap. -/
def overwrite (array buf : Bytes) (offset : ℕ) : Bytes :=
  resize array offset ++ buf ++ array.drop (offset + buf.length)

def arrayReply (array : Bytes) : HandleOp → Reply
  | .get _ => .opened
  | .readAt _ len offset => .read (.ok ((array.drop offset).take len))
  | .writeAt _ buf _ => .wrote (.ok buf.length)

def arrayStep (array : Bytes) : HandleOp → Bytes
  | .writeAt _ buf offset => overwrite array buf offset
  | _ => array

theorem length_overwrite (array buf : Bytes) (offset : ℕ) :
    (overwrite array buf offset).length = max array.length (offset + buf.length) := by
  rw [overwrite, length_append, length_append, length_resize, length_drop]
  omega

/-- What a write does in memory is what it does to the array. -/
theorem patched_eq (array buf : Bytes) (offset : ℕ) :
    patched array buf offset = overwrite array buf offset := by
  rw [patched, overwrite]
  split_ifs with h
  · rw [drop_eq_nil_of_le (le_of_lt h), drop_eq_nil_of_le (le_of_eq (length_resize _ _))]
    congr 2
    rw [resize, take_append, take_take, take_replicate, length_take]
    congr 2
    · omega
    · omega
  · congr 2
    have hle : offset - array.length = 0 := by omega
    rw [resize, hle, replicate_zero, append_nil]

/-! ### The file on the volume -/

/-- The file found in a directory under a name has these bytes: they are the first ones of its clusters,
as many as the entry records. `apart` is what a write needs, since the clusters of the file are freed
and taken again; the two bounds are the length to which the driver walks a chain. -/
structure FileAt (upper : Name → Name) (p : Fat32Params) (v : Vol p.bytesPerCluster) (dir : ℕ)
    (name : Name) (array : Bytes) (ds : List ℕ) (k : ℕ) (e : DirEntry83) (cs : List ℕ) : Prop where
  chain : Chain p v.fat dir ds
  short : ds.length ≤ maxChain
  found : findSlot upper name (v.slots ds) = some (k, e)
  file : e.isDir = false
  clusters : Clusters p v.fat e.cluster cs
  short' : cs.length ≤ maxChain
  apart : ∀ c ∈ cs, c ∉ ds
  size : e.fileSize = array.length
  contents : (v.contents cs).take array.length = array

namespace FileAt

variable {upper : Name → Name} {v v' : Vol p.bytesPerCluster} {dir k : ℕ} {name n : Name}
  {array data : Bytes} {ds cs : List ℕ} {e : DirEntry83}
  (h : FileAt upper p v dir name array ds k e cs)

include h

/-- The file under another spelling of its name. -/
theorem rename (hn : upper n = upper name) : FileAt upper p v dir n array ds k e cs :=
  { h with found := findSlot_congr hn.symm h.found }

/-- A file without clusters is empty. -/
theorem eq_nil (hempty : ¬ (2 ≤ e.cluster ∧ 0 < e.fileSize)) : array = [] := by
  rcases not_and_or.mp hempty with hlt | hsize
  · have hcontents := h.contents
    rw [h.clusters.eq_nil (not_le.mp hlt)] at hcontents
    exact hcontents.symm.trans take_nil
  · rw [h.size] at hsize
    exact length_eq_zero_iff.mp (Nat.eq_zero_of_not_pos hsize)

theorem does_findEntry (g : Geometry p) :
    Does p (findEntry upper dir name) v False fun r v' => r = some e ∧ v' = v := by
  refine leaves_findEntry g (.of_chain h.chain)
    (fun hlong => absurd h.short (not_le.mpr hlong)) fun _ => ⟨?_, rfl⟩
  rw [h.found]
  rfl

theorem does_readFile (g : Geometry p) :
    Does p (readFile p e.cluster e.fileSize) v False fun r v' => r = array ∧ v' = v := by
  refine Fat32.does_readFile g _ h.clusters
    (fun hlong => absurd h.short' (not_le.mpr hlong)) fun _ => ⟨?_, rfl⟩
  rw [h.size]
  exact h.contents

/-- **Writing the file succeeds** if there is enough space, and the slot is the one of the name. -/
theorem does_writeFile (g : Geometry p) (htarget : targetSlot name (v.slots ds) = .hit k)
    (hspace : ∀ needed, clustersNeeded p.bytesPerCluster data.length = some needed →
      needed ≤ (v.freeAll cs).freeCount p) :
    Does p (writeFile upper p dir name data) v False fun _ v' => ∃ ext news first slots,
      Written upper p v v' dir ds name data ext cs news first k slots := by
  obtain ⟨needed, hneeded⟩ := g.clustersNeeded data.length
  have hold : Clusters p v.fat (foundCluster upper name (v.slots ds)) cs := by
    rw [foundCluster, h.found]
    exact h.clusters
  refine leaves_writeFile g h.chain hneeded hold h.apart
    (fun hlong => absurd h.short (not_le.mpr hlong))
    (fun hlong => absurd h.short' (not_le.mpr hlong))
    (fun _ _ hfull => absurd (hspace needed hneeded) (not_le.mpr hfull))
    (fun _ _ _ habsent => absurd htarget (habsent k))
    (fun _ hnone => (by cases h.found.symm.trans hnone)) ?_
  rintro ext news first v' k' slots hshort rfl hfirst hwritten hedit htake
  obtain rfl : k' = k := by
    rcases writtenSlots_cases hwritten with ⟨_, _, _, _, htarget', -⟩ | ⟨hnone, -⟩
    · exact Search.hit.inj (htarget'.symm.trans htarget)
    · cases h.found.symm.trans hnone
  exact ⟨ext, news, first, slots, hshort, hneeded, hfirst, hold, hwritten, hedit, htake⟩

/-- **The file that has been written.** -/
theorem written (g : Geometry p) {ext news : List ℕ} {first : ℕ} {slots : List Bytes}
    (htarget : targetSlot name (v.slots ds) = .hit k) (hsize : data.length < 2 ^ 32)
    (hfits : data.length ≤ p.bytesPerCluster * maxChain)
    (hw : Written upper p v v' dir ds name data ext cs news first k slots) :
    ∃ e', FileAt upper p v' dir name data (ds ++ ext) k e' news := by
  have hcond : WritesFound upper p.slotsPerCluster name (v.slots ds) := by
    rw [WritesFound, h.found]
    exact htarget
  obtain ⟨e', hfound, hcluster, hlen⟩ := hw.found g hsize hcond
  -- the new clusters are neither those of the directory nor those it has taken
  have hapart : ∀ c ∈ news, c ∉ ds ++ ext := by
    intro c hc hmem
    rcases mem_append.mp hmem with hmem | hmem
    · exact (hw.edit.fresh c (.inr hc)).1 hmem
    · exact hw.edit.apart c hmem hc
  refine ⟨e', hw.edit.chain, hw.length_le g hcond.grows, by rw [hw.edit.slots, hfound], ?_,
    hcluster ▸ hw.edit.clusters, (clustersNeeded_le_iff hw.needed).mpr hfits, hapart, hlen,
    hw.contents⟩
  have hattr := attr_written (fun s hs => Vol.length_of_mem_slots g hs) hw.written h.found hfound
  rw [DirEntry83.isDir, hattr]
  exact h.file

end FileAt

/-- **A write of the file on the disk.** -/
theorem FileAt.run_writeFile (g : Geometry p) {upper : Name → Name} {dir k : ℕ} {name : Name}
    {array data : Bytes} {ds cs : List ℕ} {e : DirEntry83} (hsize : p.totalSectors ≤ d.size)
    (h : FileAt upper p (view p d) dir name array ds k e cs)
    (htarget : targetSlot name ((view p d).slots ds) = .hit k) (hlt : data.length < 2 ^ 32)
    (hfits : data.length ≤ p.bytesPerCluster * maxChain)
    (hspace : ∀ needed, clustersNeeded p.bytesPerCluster data.length = some needed →
      needed ≤ ((view p d).freeAll cs).freeCount p) :
    ∃ d' ds' e' cs', (writeFile upper p dir name data).run (onDisk p) d = (.ok (), d') ∧
      p.totalSectors ≤ d'.size ∧ FileAt upper p (view p d') dir name data ds' k e' cs' := by
  rcases (h.does_writeFile g htarget hspace).onDisk g hsize with
    ⟨_, d', hrun, hsize', ext, news, first, slots, hwritten⟩ | ⟨_, _, _, hfalse⟩
  · obtain ⟨e', hfile⟩ := h.written g htarget hlt hfits hwritten
    exact ⟨d', ds ++ ext, e', news, hrun, hsize', hfile⟩
  · exact absurd hfalse id

/-! ### What one call does -/

/-- The disk has the file with these bytes, and the handles are handles of this file. -/
structure Represents (upper : Name → Name) (p : Fat32Params) (dir : ℕ) (name : Name) (s : Session)
    (array : Bytes) : Prop where
  size : p.totalSectors ≤ s.disk.size
  file : ∃ ds k e cs, FileAt upper p (view p s.disk) dir name array ds k e cs
  files : ∀ f ∈ s.files, f.dirCluster = dir ∧ upper f.name = upper name

theorem ofDriver_eq {α : Type} {x : DriverM α} {d' : Disk} {a : α}
    (h : x.run (onDisk p) d = (.ok a, d')) : ofDriver p x d = (.ok a, d') := by
  rw [ofDriver, Act.mapError, h]
  rfl

variable {f : Fat32File}

section Calls

variable (g : Geometry p) {upper : Name → Name} {dir : Fat32Directory} {name : Name} {s : Session}
  {array : Bytes} (h : Represents upper p dir.cluster name s array)

include g h

open HandleOp

/-- A new handle. -/
theorem Represents.get {n : Name} (hn : upper n = upper name) :
    (exec upper p dir s (.get n)).1 = .opened ∧
      Represents upper p dir.cluster name (exec upper p dir s (.get n)).2 array := by
  obtain ⟨ds, k, e, cs, hfile⟩ := h.file
  obtain ⟨d', hrun, hsize, hview⟩ := ((hfile.rename hn).does_findEntry g).run_eq g h.size
  have hget : dir.get upper p n s.disk =
      (.ok (some (.file ⟨n, e.cluster, e.fileSize, dir.cluster⟩)), d') := by
    rw [Fat32Directory.get, hrun]
    simp only [hfile.file, Bool.false_eq_true, if_false]
  rw [exec, hget]
  refine ⟨rfl, hsize, ⟨ds, k, e, cs, hview ▸ hfile⟩, fun f hf => ?_⟩
  rcases mem_append.mp hf with hf | hf
  · exact h.files f hf
  · obtain rfl := mem_singleton.mp hf
    exact ⟨rfl, hn⟩

/-- The file as a handle sees it that knows its entry. -/
theorem Represents.current (hf : f ∈ s.files) (hcurrent : f.Current upper p s.disk) :
    ∃ ds k e cs, FileAt upper p (view p s.disk) f.dirCluster f.name array ds k e cs ∧
      f.firstCluster = e.cluster ∧ f.size = e.fileSize := by
  obtain ⟨hdir, hname⟩ := h.files f hf
  obtain ⟨ds, k, e, cs, hfile⟩ := h.file
  rw [← hdir] at hfile
  replace hfile := hfile.rename hname
  obtain ⟨e', hrun', hcluster, hsize'⟩ := hcurrent
  obtain ⟨d', hrun, -⟩ := (hfile.does_findEntry g).run_eq g h.size
  rw [hrun] at hrun'
  obtain rfl : e = e' := Option.some.inj (Outcome.ok.inj hrun')
  exact ⟨ds, k, e, cs, hfile, hcluster, hsize'⟩

/-- A read through a handle that knows the entry. -/
theorem Represents.readAt {i len offset : ℕ} (hf : s.files[i]? = some f)
    (hcurrent : f.Current upper p s.disk) :
    (exec upper p dir s (.readAt i len offset)).1 =
        .read (.ok ((array.drop offset).take len)) ∧
      Represents upper p dir.cluster name (exec upper p dir s (.readAt i len offset)).2
        array := by
  obtain ⟨ds, k, e, cs, hfile, hcluster, hlen⟩ := h.current g (mem_of_getElem? hf) hcurrent
  have hread : ∃ d', f.readAt p len offset s.disk = (.ok ((array.drop offset).take len), d') ∧
      p.totalSectors ≤ d'.size ∧ view p d' = view p s.disk := by
    rw [Fat32File.readAt]
    split_ifs with hend
    · rw [hlen, hfile.size] at hend
      rw [drop_eq_nil_of_le hend, take_nil]
      exact ⟨s.disk, rfl, h.size, rfl⟩
    obtain ⟨d', hrun, hsize, hview⟩ := (hfile.does_readFile g).run_eq g h.size
    rw [hcluster, hlen, Act.bind_of_ok _ (ofDriver_eq hrun)]
    refine ⟨d', ?_, hsize, hview⟩
    rw [hlen, hfile.size] at hend
    have hstop : ¬ min (offset + len) array.length < offset := by omega
    have hmin : min (offset + len) array.length - offset = min len (array.drop offset).length := by
      rw [length_drop]
      omega
    rw [if_neg hstop, drop_take, hmin, ← take_eq_take_min]
    rfl
  obtain ⟨d', hread, hsize, hview⟩ := hread
  rw [exec, hf]
  simp only [hread]
  obtain ⟨ds, k, e, cs, hfile⟩ := h.file
  exact ⟨trivial, hsize, ⟨ds, k, e, cs, hview ▸ hfile⟩, h.files⟩

/-- The bytes that a write through a handle starts from. -/
theorem Represents.existing (hf : f ∈ s.files) (hcurrent : f.Current upper p s.disk) :
    ∃ d', f.existing p s.disk = (.ok array, d') ∧ p.totalSectors ≤ d'.size ∧
      view p d' = view p s.disk := by
  obtain ⟨ds, k, e, cs, hfile, hcluster, hlen⟩ := h.current g hf hcurrent
  rw [Fat32File.existing, hcluster, hlen]
  split_ifs with hdata
  · obtain ⟨d', hrun, hsize, hview⟩ := (hfile.does_readFile g).run_eq g h.size
    exact ⟨d', ofDriver_eq hrun, hsize, hview⟩
  · rw [hfile.eq_nil hdata]
    exact ⟨s.disk, rfl, h.size, rfl⟩

/-- A write through a handle that knows the entry, and can write it. -/
theorem Represents.writeAt {i offset : ℕ} {buf : Bytes} (hf : s.files[i]? = some f)
    (hcurrent : f.Current upper p s.disk)
    (hwritable : f.Writable upper p (view p s.disk) (max f.size (offset + buf.length))) :
    (exec upper p dir s (.writeAt i buf offset)).1 = .wrote (.ok buf.length) ∧
      Represents upper p dir.cluster name (exec upper p dir s (.writeAt i buf offset)).2
        (overwrite array buf offset) := by
  have hmem : f ∈ s.files := mem_of_getElem? hf
  obtain ⟨ds, k, e, cs, hfile, hcluster, hlen⟩ := h.current g hmem hcurrent
  obtain ⟨d₁, hread, hsize₁, hview₁⟩ := h.existing g hmem hcurrent
  -- the new contents have the size for which the handle is writable
  obtain ⟨hlt, hfits, hspace, htarget⟩ := hwritable
  rw [hlen, hfile.size, ← length_overwrite] at hlt hfits hspace
  rw [hcluster] at hspace
  replace htarget := htarget ds (k, e) hfile.chain hfile.found
  rw [← hview₁] at hfile htarget hspace
  obtain ⟨d₂, ds', e', cs', hwrite, hsize₂, hfile'⟩ := hfile.run_writeFile g hsize₁ htarget hlt hfits
    fun needed hneeded => hspace cs needed hfile.clusters hneeded
  obtain ⟨d₃, hfind, hsize₃, hview₃⟩ := (hfile'.does_findEntry g).run_eq g hsize₂
  have hrefresh : f.refresh upper p d₂ =
      (.ok { f with firstCluster := e'.cluster, size := e'.fileSize }, d₃) := by
    rw [Fat32File.refresh, hfind]
  have hrun : f.writeAt upper p buf offset s.disk =
      (.ok (buf.length, { f with firstCluster := e'.cluster, size := e'.fileSize }), d₃) := by
    rw [Fat32File.writeAt, Act.bind_of_ok _ hread, patched_eq, Act.bind_of_ok _ (ofDriver_eq hwrite),
      Act.bind_of_ok _ hrefresh]
    rfl
  obtain ⟨hdir, hname⟩ := h.files f hmem
  rw [exec, hf]
  simp only [hrun]
  refine ⟨trivial, hsize₃, ⟨ds', k, e', cs', ?_⟩, fun f' hf' => ?_⟩
  · rw [hview₃, ← hdir]
    exact hfile'.rename hname.symm
  · rcases mem_or_eq_of_mem_set hf' with hmem' | rfl
    · exact h.files f' hmem'
    · exact ⟨hdir, hname⟩

end Calls

/-- **Through handles that know its entry a file is one array of bytes.** Any number of handles of the
file may be made, and reads and writes through them may be in any order. Every call returns what it
returns for the array: a read the bytes of the array as the writes before it have left it. -/
theorem handles_one_array (g : Geometry p) (upper : Name → Name) (d : Disk)
    (hsize : p.totalSectors ≤ d.size) (dir : Fat32Directory) (name : Name) (array : Bytes)
    (ds : List ℕ) (k : ℕ) (e : DirEntry83) (cs : List ℕ)
    (hfile : FileAt upper p (view p d) dir.cluster name array ds k e cs) (ops : List HandleOp)
    (h : Guarded (fun s op => (HandleOp.exec upper p dir s op).2)
      (fun s op => op.Guard upper p name s) ⟨d, []⟩ ops) :
    outputs (fun s op => (HandleOp.exec upper p dir s op).2)
        (fun s op => (HandleOp.exec upper p dir s op).1) ⟨d, []⟩ ops =
      outputs arrayStep arrayReply array ops := by
  refine h.outputs_eq (R := Represents upper p dir.cluster name) ?_
    ⟨hsize, ⟨ds, k, e, cs, hfile⟩, forall_mem_nil _⟩
  rintro s a (n | ⟨i, len, offset⟩ | ⟨i, buf, offset⟩) hs hguard
  · exact hs.get g hguard
  · obtain ⟨f, hf, hcurrent⟩ := hguard
    exact hs.readAt g hf hcurrent
  · obtain ⟨f, hf, hcurrent, hwritable⟩ := hguard
    exact hs.writeAt g hf hcurrent hwritable

/-! ### Handles on the small volume -/

/-- An empty file in the root directory. -/
theorem small_fileAt : FileAt asciiUpper smallParams
    (view smallParams (smallDisk (emptyFile "a".toList).toBytes)) 2 "a".toList [] [2] 0
    (emptyFile "a".toList) [] := by
  exact ⟨smallDisk_chain _, by decide, by decide +kernel, by decide, .of_lt (by decide), by decide,
    forall_mem_nil _, by decide, rfl⟩

/-- A file of one byte in the root directory. -/
theorem byte_fileAt : FileAt asciiUpper smallParams (view smallParams byteDisk) 2 "a".toList [0x41] [2]
    0 byteFile [3] := by
  have hcs : Chain smallParams (view smallParams byteDisk).fat byteFile.cluster [3] :=
    .last (by decide) (by decide +kernel)
  exact ⟨byteDisk_chain, by decide, by decide +kernel, by decide, .of_chain hcs, by decide, by decide,
    by decide, by decide +kernel⟩

theorem small_writable {size k : ℕ} {e : DirEntry83} {cs : List ℕ} (needed : ℕ)
    (hroot : fat32Eoc ≤ (view smallParams d).fat 2) (hdir : f.dirCluster = 2)
    (hcs : Clusters smallParams (view smallParams d).fat f.firstCluster cs)
    (hsize : size ≤ 512 * maxChain) (hneeded : clustersNeeded 512 size = some needed)
    (hspace : needed ≤ ((view smallParams d).freeAll cs).freeCount smallParams)
    (hfind : findSlot asciiUpper f.name ((view smallParams d).slots [2]) = some (k, e))
    (htarget : targetSlot f.name ((view smallParams d).slots [2]) = .hit k) :
    f.Writable asciiUpper smallParams (view smallParams d) size := by
  refine ⟨lt_of_le_of_lt hsize (by decide), hsize, fun olds needed' holds hneeded' => ?_,
    fun ds found hds hfound => ?_⟩
  · rw [holds.eq hcs]
    obtain rfl : needed = needed' := Option.some.inj (hneeded.symm.trans hneeded')
    exact hspace
  · rw [hdir] at hds
    obtain rfl := Thread.eq hds (small_root hroot)
    obtain rfl : found = (k, e) := Option.some.inj (hfound.symm.trans hfind)
    exact htarget

/-- A write with a gap and a read. -/
def gapOps : List HandleOp := [.get "a".toList, .writeAt 0 [0x42, 0x43] 2, .readAt 0 8 0]

theorem handles_one_array_gap :
    outputs (fun s op => (HandleOp.exec asciiUpper smallParams ⟨[], 2⟩ s op).2)
        (fun s op => (HandleOp.exec asciiUpper smallParams ⟨[], 2⟩ s op).1)
        ⟨byteDisk, []⟩ gapOps =
      [.opened, .wrote (.ok 2), .read (.ok [0x41, 0x00, 0x42, 0x43])] := by
  have hcs : Chain smallParams (view smallParams
      (HandleOp.exec asciiUpper smallParams ⟨[], 2⟩ ⟨byteDisk, []⟩ (.get "a".toList)).2.disk).fat
        3 [3] :=
    .last (by decide) (by decide +kernel)
  refine (handles_one_array smallParams_geometry asciiUpper byteDisk (by decide) ⟨[], 2⟩ "a".toList
    [0x41] [2] 0 byteFile [3] byte_fileAt gapOps ⟨rfl, ⟨⟨"a".toList, 3, 1, 2⟩, ?_, ?_, ?_⟩,
      ⟨⟨"a".toList, 3, 4, 2⟩, ?_, ?_⟩, trivial⟩).trans ?_
  · decide +kernel
  · exact ⟨byteFile, by decide +kernel, by decide, by decide⟩
  · exact small_writable 1 (k := 0) (e := byteFile) (by decide +kernel) rfl (.of_chain hcs)
      (by decide) (by decide) (by decide +kernel) (by decide +kernel) (by decide +kernel)
  · decide +kernel
  · exact ⟨.ofCluster (nameTo83 "a".toList) attrArchive 3 4, by decide +kernel, by decide, by decide⟩
  · decide

/-- Two handles of a file, a write through the first and a read through the second. -/
def staleOps : List HandleOp :=
  [.get "a".toList, .get "a".toList, .writeAt 0 [0x41] 0, .readAt 1 1 0]

/-- **A handle does not see what is written through another one.** The second handle still has the size
of the empty file, and the read returns nothing. -/
theorem handle_stale :
    Geometry smallParams ∧
      smallParams.totalSectors ≤ (smallDisk (emptyFile "a".toList).toBytes).size ∧
      WellFormed smallParams (view smallParams (smallDisk (emptyFile "a".toList).toBytes)) ∧
      FileAt asciiUpper smallParams (view smallParams (smallDisk (emptyFile "a".toList).toBytes)) 2
        "a".toList [] [2] 0 (emptyFile "a".toList) [] ∧
      outputs (fun s op => (HandleOp.exec asciiUpper smallParams ⟨[], 2⟩ s op).2)
          (fun s op => (HandleOp.exec asciiUpper smallParams ⟨[], 2⟩ s op).1)
          ⟨smallDisk (emptyFile "a".toList).toBytes, []⟩ staleOps =
        [.opened, .opened, .wrote (.ok 1), .read (.ok [])] ∧
      outputs arrayStep arrayReply [] staleOps =
        [.opened, .opened, .wrote (.ok 1), .read (.ok [0x41])] := by
  have hhollow : ∀ ne ∈ scan []
      ((view smallParams (smallDisk (emptyFile "a".toList).toBytes)).slots [2]), ne.2.cluster < 2 := by
    decide +kernel
  exact ⟨smallParams_geometry, by decide, smallDisk_wellFormed hhollow, small_fileAt,
    by decide +kernel, by decide⟩

end Maios.Fat32
