import Maios.Fat32.FatTable
import Maios.Fat32.Handles

/-!
# Reading an arbitrary image

A boot sector is accepted for its signature and for two fields that are zero on FAT32. The geometry,
the links of the table and the sizes of files are then used as they are. Reading panics in three
ways: the number of a sector does not fit into 32 bits, a sector is said to be longer than the
buffer it is read into, or a read starts behind the bytes that the chain of the file has.

What matters is which clusters the driver comes to. These are the ones whose links it can follow to
an end: if they are safe to read, then so is every directory and every file.

## Main results

* `neverPanics_iff_safeImage` — reading never panics exactly if those clusters are safe
-/

namespace Maios.Fat32

open List Act Prog

/-! ### The remaining functions that read -/

/-- The geometry in a boot sector; `None` is the error. The arithmetic is that of `u32`. -/
def Fat32Params.parse (boot : Bytes) : Outcome Unit Fat32Params :=
  if boot.length < 512 then .err ()
  else if byteAt boot 510 ≠ 0x55 ∨ byteAt boot 511 ≠ 0xAA then .err ()
  else if ru16 boot 22 ≠ 0 then .err ()
  else if ru16 boot 17 ≠ 0 then .err ()
  else if 2 ^ 32 ≤ ru16 boot 14 + byteAt boot 16 * ru32 boot 36 then .panic
  else .ok
    { bytesPerSector := ru16 boot 11
      sectorsPerCluster := byteAt boot 13
      numFats := byteAt boot 16
      totalSectors := if ru16 boot 19 = 0 then ru32 boot 32 else ru16 boot 19
      sectorsPerFat := ru32 boot 36
      rootCluster := ru32 boot 44
      fatStartSector := ru16 boot 14
      dataStartSector := ru16 boot 14 + byteAt boot 16 * ru32 boot 36
      bytesPerCluster := ru16 boot 11 * byteAt boot 13 }

section Paths

variable (upper : Name → Name)

/-- Follow the segments of a path from a directory. A file ends the path, whatever follows it. -/
def resolveSegments : List Name → ℕ → DriverM (Option DirEntry83)
  | [], cur => pure (some (.ofCluster dotName attrDirectory cur 0))
  | seg :: segs, cur =>
    if seg = [] then resolveSegments segs cur
    else do
      match ← findEntry upper cur seg with
      | none => pure none
      | some entry => if entry.isDir then resolveSegments segs entry.cluster else pure (some entry)

/-- The path without the slashes at its ends. -/
def trimSlashes (path : Name) : Name :=
  ((path.dropWhile (· = '/')).reverse.dropWhile (· = '/')).reverse

def resolvePath (p : Fat32Params) (path : Name) : DriverM (Option DirEntry83) :=
  resolveSegments upper ((trimSlashes path).splitOn '/') p.rootCluster

/-- The cluster of the directory that is listed. -/
def listStart (p : Fat32Params) (path : Name) : DriverM ℕ :=
  if path = ['/'] ∨ path = [] then pure p.rootCluster
  else do
    match ← resolvePath upper p path with
    | some e => if e.isDir then pure e.cluster else Prog.fail "FAT32: path not found"
    | none => Prog.fail "FAT32: path not found"

def listDir (p : Fat32Params) (path : Name) : DriverM (List (Name × Bool)) := do
  let start ← listStart upper p path
  let entries ← iterDir start
  pure (entries.map fun e => (e.1, e.2.isDir))

/-- The entry of a file that a search or a path leads to. -/
def Finds (p : Fat32Params) (d : Disk) (e : DirEntry83) : Prop :=
  e.isDir = false ∧
    ((∃ dir name, ((findEntry upper dir name).run (onDisk p) d).1 = .ok (some e)) ∨
      ∃ path, ((resolvePath upper p path).run (onDisk p) d).1 = .ok (some e))

/-- No call that reads panics. -/
structure NeverPanics (p : Fat32Params) (d : Disk) : Prop where
  readFile : ∀ first size, ((readFile p first size).run (onDisk p) d).1 ≠ .panic
  findEntry : ∀ dir name, ((findEntry upper dir name).run (onDisk p) d).1 ≠ .panic
  resolvePath : ∀ path, ((resolvePath upper p path).run (onDisk p) d).1 ≠ .panic
  listDir : ∀ path, ((listDir upper p path).run (onDisk p) d).1 ≠ .panic
  readAt : ∀ e, Finds upper p d e → ∀ f : Fat32File, f.firstCluster = e.cluster →
    f.size = e.fileSize → ∀ len offset, (f.readAt p len offset d).1 ≠ .panic

end Paths

/-! ### The condition -/

/-- The sectors from `s` on can be read or are found to be missing: their numbers fit into 32 bits
as far as the device goes, and they fit into the buffer. -/
def SectorsSafe (bps size n s : ℕ) : Prop :=
  n = 0 ∨ s < 2 ^ 32 ∧ (size ≤ s ∨ bps ≤ 512 ∧ (s + n ≤ 2 ^ 32 ∨ size < 2 ^ 32))

def ClusterSafe (p : Fat32Params) (d : Disk) (c : ℕ) : Prop :=
  p.firstSector c < 2 ^ 32 ∧
    SectorsSafe p.bytesPerSector d.size p.sectorsPerCluster (p.firstSector c)

/-- The device has all sectors of a cluster. -/
def Readable (p : Fat32Params) (d : Disk) (c : ℕ) : Prop :=
  p.sectorsPerCluster = 0 ∨ p.firstSector c + p.sectorsPerCluster ≤ d.size

/-- The driver can follow the links from a cluster to an end, after `n` clusters. -/
structure HasChain (p : Fat32Params) (d : Disk) (c n : ℕ) : Prop where
  ends : EndsAfter (link p d) c n
  le : n ≤ maxChain
  onDevice : EntriesOnDevice p d c

/-- All of the clusters from a first one on are on the device. -/
abbrev AllReadable (p : Fat32Params) (d : Disk) (c n : ℕ) : Prop :=
  ∀ x ∈ List.iterate (link p d) c n, Readable p d x

/-- Clusters that are read are safe to read, and a file that is found has at most one byte more than
its clusters, if they can all be read. -/
structure SafeImage (upper : Name → Name) (p : Fat32Params) (d : Disk) : Prop where
  clusters : ∀ c n, ¬ Ends c → HasChain p d c n → ClusterSafe p d c
  sizes : ∀ e n, Finds upper p d e → HasChain p d e.cluster n → AllReadable p d e.cluster n →
    e.fileSize ≤ n * p.bytesPerCluster + 1

/-! ### Programs that only read -/

section Reads

variable {p : Fat32Params} {d : Disk} {F : Prop} {α β : Type} {Q : α → Prop}

/-- The program does not panic and leaves the disk alone; it fails only if `F`, and otherwise its
value is in `Q`. -/
def Reads (p : Fat32Params) (d : Disk) (F : Prop) (x : DriverM α) (Q : α → Prop) : Prop :=
  (x.run (onDisk p)).wp (fun a d' => d' = d ∧ Q a) (fun _ _ => F) d

theorem reads_pure {a : α} (h : Q a) : Reads p d F (pure a) Q := ⟨rfl, h⟩

theorem Reads.bind {x : DriverM α} {f : α → DriverM β} {R : β → Prop} (h : Reads p d F x Q)
    (hf : ∀ a, Q a → Reads p d F (f a) R) : Reads p d F (x >>= f) R := by
  rw [Reads, run_bind, wp_bind]
  refine wp.mono h ?_ fun _ _ => id
  rintro a _ ⟨rfl, ha⟩
  exact hf a ha

/-! ### Sectors and clusters -/

/-- How reading sectors ends: they are not safe to read, all there, or not all there. -/
theorem readSectors_cases (bps n s : ℕ) :
    (¬ SectorsSafe bps d.size n s ∧ readSectors bps n s d = (.panic, d)) ∨
      SectorsSafe bps d.size n s ∧
        ((∃ buf, readSectors bps n s d = (.ok buf, d) ∧ buf.length = bps * n ∧
            (n = 0 ∨ s + n ≤ d.size)) ∨
          ∃ e, readSectors bps n s d = (.err e, d) ∧ ¬ (n = 0 ∨ s + n ≤ d.size)) := by
  simp only [SectorsSafe]
  induction n generalizing s with
  | zero => exact .inr ⟨.inl rfl, .inl ⟨[], rfl, rfl, .inl rfl⟩⟩
  | succ n ih =>
    rw [readSectors]
    by_cases h32 : 2 ^ 32 ≤ s
    · exact .inl ⟨by omega, by rw [if_pos h32]; rfl⟩
    rw [if_neg h32]
    by_cases hlt : s < d.size
    · rw [bind_of_ok _ (readSector_of_lt hlt)]
      by_cases hbps : 512 < bps
      · exact .inl ⟨by omega, by rw [if_pos hbps]; rfl⟩
      rw [if_neg hbps]
      rcases ih (s + 1) with ⟨hbad, hrun⟩ | ⟨hsafe, ⟨buf, hrun, hlen, hin⟩ | ⟨e, hrun, hout⟩⟩
      · exact .inl ⟨by omega, bind_of_panic _ hrun⟩
      · refine .inr ⟨by omega, .inl ⟨_, bind_of_ok _ hrun, ?_, by omega⟩⟩
        have hsector : (d.sectors s).1.length = 512 := (d.sectors s).2
        rw [length_append, length_take, Nat.mul_succ]
        omega
      · exact .inr ⟨by omega, .inr ⟨e, bind_of_err _ hrun, by omega⟩⟩
    · have hread : readSector s d = (.err "FAT32: read error", d) := if_neg hlt
      exact .inr ⟨by omega, .inr ⟨_, bind_of_err _ hread, by omega⟩⟩

variable {c n : ℕ} {cs : List ℕ}

theorem run_readCluster (hc : ¬ Ends c) (hfirst : p.firstSector c < 2 ^ 32) :
    Disk.readCluster p c = readSectors p.bytesPerSector p.sectorsPerCluster (p.firstSector c) := by
  have hsector : p.clusterToSector c = some (p.firstSector c) :=
    (if_neg fun h => hc (.inl h)).trans (if_pos hfirst)
  rw [Disk.readCluster, hsector]

theorem readCluster_panics (hc : ¬ Ends c) (h : ¬ ClusterSafe p d c) :
    Disk.readCluster p c d = (.panic, d) := by
  by_cases hfirst : p.firstSector c < 2 ^ 32
  · rw [run_readCluster hc hfirst]
    exact ((readSectors_cases _ _ _).resolve_right fun hs => h ⟨hfirst, hs.1⟩).2
  · have hsector : p.clusterToSector c = none := (if_neg fun h => hc (.inl h)).trans (if_neg hfirst)
    rw [Disk.readCluster, hsector]
    rfl

/-- The buffer is as long as a cluster, so what `read_file` copies is inside it. -/
theorem reads_readCluster (hc : ¬ Ends c) (h : ClusterSafe p d c) (hF : ¬ Readable p d c → F) :
    Reads p d F (readCluster c) fun buf =>
      buf.length = p.bytesPerSector * p.sectorsPerCluster ∧ Readable p d c := by
  have hrun : (readCluster c).run (onDisk p) = Disk.readCluster p c := run_ofCall _ _
  rw [Reads, hrun, run_readCluster hc h.1, wp]
  rcases readSectors_cases _ _ _ with ⟨hbad, _⟩ | ⟨_, ⟨buf, hrun, hbuf⟩ | ⟨e, hrun, hout⟩⟩
  · exact absurd h.2 hbad
  · rw [hrun]
    exact ⟨rfl, hbuf⟩
  · rw [hrun]
    exact hF hout

/-! ### Chains -/

theorem HasChain.unique {m : ℕ} (hm : HasChain p d c m) (hn : HasChain p d c n) : m = n := by
  rcases lt_trichotomy m n with hlt | heq | hlt
  · exact absurd hm.ends.2 (hn.ends.1 m hlt)
  · exact heq
  · exact absurd hn.ends.2 (hm.ends.1 n hlt)

/-- The links can be followed to an end from every cluster of a chain. -/
theorem HasChain.of_mem {x : ℕ} (h : HasChain p d c n) (hx : x ∈ iterate (link p d) c n) :
    ¬ Ends x ∧ ∃ k, HasChain p d x k := by
  induction n generalizing c with
  | zero => simp at hx
  | succ n ih =>
    obtain ⟨hc, hwalk⟩ := walks_succ_iff.mp h.ends.1
    rcases mem_cons.mp hx with rfl | hx
    · exact ⟨hc, _, h⟩
    · exact ih ⟨⟨hwalk, h.ends.2⟩, Nat.le_of_succ_le h.le, h.onDevice.link hc⟩ hx

theorem endsAfter_or_err (m c : ℕ) :
    (∃ n ≤ m, EndsAfter (link p d) c n ∧ EntriesOnDevice p d c) ∨
      ∃ e, (clusterChainFrom m c).run (onDisk p) d = (.err e, d) := by
  induction m generalizing c with
  | zero =>
    by_cases hc : Ends c
    · exact .inl ⟨0, le_refl 0, ⟨by simp [Walks], hc⟩, fun k hk => absurd hc (hk 0 k.succ_pos)⟩
    · exact .inr ⟨_, by rw [clusterChainFrom, if_neg hc]; rfl⟩
  | succ m ih =>
    by_cases hc : Ends c
    · exact .inl ⟨0, Nat.zero_le _, ⟨by simp [Walks], hc⟩, fun k hk => absurd hc (hk 0 k.succ_pos)⟩
    by_cases hdev : p.fatStartSector + c * 4 / 512 < d.size
    · rcases ih (link p d c) with ⟨n, hn, hends, hrest⟩ | ⟨e, he⟩
      · refine .inl ⟨n + 1, Nat.succ_le_succ hn, ⟨walks_succ_iff.mpr ⟨hc, hends.1⟩, hends.2⟩, ?_⟩
        rintro (_ | k) hk
        · exact hdev
        · exact hrest k (walks_succ_iff.mp hk).2
      · exact .inr ⟨e, by rw [run_clusterChainFrom_succ m hc hdev, bind_of_err _ he]⟩
    · refine .inr ⟨"FAT32: read error", ?_⟩
      have hlt : c < 2 ^ 28 := (lt_of_not_ends hc).trans (by decide)
      have hentry : onDisk p (.fatEntry c) d = (.err "FAT32: read error", d) :=
        Disk.fatEntry_of_le hlt (Nat.le_of_not_lt hdev)
      rw [clusterChainFrom, if_neg hc, fatEntry, run_bind, run_ofCall,
        bind_of_err _ hentry]

theorem run_clusterChain (h : HasChain p d c n) :
    (clusterChain c).run (onDisk p) d = (.ok (iterate (link p d) c n), d) :=
  run_clusterChainFrom_of_endsAfter h.onDevice h.ends h.le

theorem reads_clusterChain (c : ℕ) (hF : (¬ ∃ n, HasChain p d c n) → F) :
    Reads p d F (clusterChain c) fun cs =>
      ∃ n, HasChain p d c n ∧ cs = iterate (link p d) c n := by
  rw [Reads, wp]
  by_cases h : ∃ n, HasChain p d c n
  · obtain ⟨n, hn⟩ := h
    rw [run_clusterChain hn]
    exact ⟨rfl, n, hn, rfl⟩
  · rcases endsAfter_or_err (p := p) (d := d) maxChain c with ⟨n, hle, hends, hdev⟩ | ⟨e, he⟩
    · exact absurd ⟨n, hends, hle, hdev⟩ h
    · rw [clusterChain, he]
      exact hF h

/-! ### Directories and files -/

section Safe

variable (hsafe : ∀ c n, ¬ Ends c → HasChain p d c n → ClusterSafe p d c) {upper : Name → Name}
  (dir : ℕ)

include hsafe

theorem reads_iterClusters (hcs : ∀ x ∈ cs, ¬ Ends x ∧ ∃ n, HasChain p d x n) (lfn : LfnCollector) :
    Reads p d True (iterClusters cs lfn) fun _ => True := by
  induction cs generalizing lfn with
  | nil => exact reads_pure trivial
  | cons c cs ih =>
    obtain ⟨⟨hc, n, hn⟩, hcs⟩ := forall_mem_cons.mp hcs
    refine (reads_readCluster hc (hsafe c n hc hn) fun _ => trivial).bind fun buf _ => ?_
    split
    · exact reads_pure trivial
    · exact (ih hcs _).bind fun _ _ => reads_pure trivial

theorem reads_iterDir : Reads p d True (iterDir dir) fun _ => True := by
  refine (reads_clusterChain dir fun _ => trivial).bind ?_
  rintro _ ⟨n, hn, rfl⟩
  exact reads_iterClusters hsafe (fun x hx => hn.of_mem hx) []

theorem reads_findEntry (name : Name) : Reads p d True (findEntry upper dir name) fun _ => True :=
  (reads_iterDir hsafe dir).bind fun _ _ => reads_pure trivial

theorem reads_resolveSegments (segs : List Name) (cur : ℕ) :
    Reads p d True (resolveSegments upper segs cur) fun _ => True := by
  induction segs generalizing cur with
  | nil => exact reads_pure trivial
  | cons seg segs ih =>
    rw [resolveSegments]
    split_ifs
    · exact ih cur
    refine (reads_findEntry hsafe cur seg).bind ?_
    rintro (_ | entry) -
    · exact reads_pure trivial
    · dsimp only
      split_ifs
      · exact ih _
      · exact reads_pure trivial

theorem reads_listDir (path : Name) : Reads p d True (listDir upper p path) fun _ => True := by
  have hstart : Reads p d True (listStart upper p path) fun _ => True := by
    rw [listStart]
    split_ifs
    · exact reads_pure trivial
    refine (reads_resolveSegments hsafe _ _).bind ?_
    rintro (_ | entry) -
    · exact trivial
    · dsimp only
      split_ifs
      · exact reads_pure trivial
      · exact trivial
  exact hstart.bind fun start _ => (reads_iterDir hsafe start).bind fun _ _ => reads_pure trivial

variable (hbpc : p.bytesPerCluster = p.bytesPerSector * p.sectorsPerCluster)

include hbpc

/-- The bytes of a chain are all there, unless what is missing is not asked for. -/
theorem reads_readClusters (hcs : ∀ x ∈ cs, ¬ Ends x ∧ ∃ n, HasChain p d x n) {size : ℕ}
    {out : Bytes} (hF : (¬ ∀ x ∈ cs, Readable p d x) → F) (hout : out.length ≤ size) :
    Reads p d F (readClusters p.bytesPerCluster size cs out) fun data =>
      data.length = min size (out.length + cs.length * p.bytesPerCluster) ∧
        ((∀ x ∈ cs, Readable p d x) ∨ size ≤ data.length) := by
  induction cs generalizing out with
  | nil => exact reads_pure ⟨by simp [hout], .inl (by simp)⟩
  | cons c cs ih =>
    obtain ⟨⟨hc, n, hn⟩, hcs⟩ := forall_mem_cons.mp hcs
    rw [forall_mem_cons] at hF
    rw [readClusters, length_cons, Nat.succ_mul]
    split_ifs with hfull
    · exact reads_pure ⟨by omega, .inr hfull⟩
    refine (reads_readCluster hc (hsafe c n hc hn) fun h => hF fun hall => h hall.1).bind ?_
    rintro buf ⟨hbuf, hread⟩
    have hlen : (out ++ buf.take (min (size - out.length) p.bytesPerCluster)).length =
        min size (out.length + p.bytesPerCluster) := by
      rw [length_append, length_take]
      omega
    have hrest := ih hcs (fun h => hF fun hall => h hall.2) (hlen.trans_le (min_le_left _ _))
    refine wp.mono hrest ?_ fun _ _ => id
    rintro data _ ⟨rfl, hdata, hall⟩
    exact ⟨rfl, by omega, hall.imp (fun h => forall_mem_cons.mpr ⟨hread, h⟩) id⟩

theorem reads_readFile (c size : ℕ) :
    Reads p d (¬ ∃ n, HasChain p d c n ∧ AllReadable p d c n) (readFile p c size) fun data =>
      ∃ n, HasChain p d c n ∧ data.length = min size (n * p.bytesPerCluster) ∧
        (AllReadable p d c n ∨ size ≤ data.length) := by
  refine (reads_clusterChain c fun h ⟨n, hn, _⟩ => h ⟨n, hn⟩).bind ?_
  rintro _ ⟨n, hn, rfl⟩
  refine (reads_readClusters hsafe hbpc (fun x hx => hn.of_mem hx) ?_ (Nat.zero_le size)).bind ?_
  · rintro hmiss ⟨m, hm, hall⟩
    exact hmiss (hn.unique hm ▸ hall)
  · rintro data ⟨hlen, hall⟩
    rw [length_iterate, length_nil, zero_add] at hlen
    have htake : (data.take size).length = data.length := by
      rw [length_take]
      omega
    exact reads_pure ⟨n, hn, htake.trans hlen, htake.symm ▸ hall⟩

theorem readAt_ne_panic_iff (f : Fat32File) :
    (∀ len offset, (f.readAt p len offset d).1 ≠ .panic) ↔ ∀ n, HasChain p d f.firstCluster n →
      AllReadable p d f.firstCluster n → f.size ≤ n * p.bytesPerCluster + 1 := by
  have hreads := reads_readFile hsafe hbpc f.firstCluster f.size
  rw [Reads, wp] at hreads
  rcases hrun : (readFile p f.firstCluster f.size).run (onDisk p) d with ⟨data | e | _, d'⟩ <;>
    rw [hrun] at hreads
  · obtain ⟨rfl, n, hn, hlen, hall⟩ := hreads
    have hdata : ofDriver p (readFile p f.firstCluster f.size) d' = (.ok data, d') := by
      rw [ofDriver, mapError, hrun]
      rfl
    constructor
    · intro h m hm _
      obtain rfl := hn.unique hm
      by_contra hshort
      refine h 0 (n * p.bytesPerCluster + 1) ?_
      rw [Fat32File.readAt, if_neg (by omega), bind_of_ok _ hdata, if_pos (by omega)]
      rfl
    · intro h len offset
      rw [Fat32File.readAt]
      split_ifs with hend
      · simp
      have hsize : f.size ≤ n * p.bytesPerCluster + 1 := hall.elim (h n hn) fun h => by omega
      rw [bind_of_ok _ hdata, if_neg (by omega)]
      simp
  · have hdata : ofDriver p (readFile p f.firstCluster f.size) d = (.err .invalidInput, d') := by
      rw [ofDriver, mapError, hrun]
      rfl
    constructor
    · exact fun _ n hn hall => absurd ⟨n, hn, hall⟩ hreads
    · intro _ len offset
      rw [Fat32File.readAt]
      split_ifs
      · simp
      · rw [bind_of_err _ hdata]
        simp
  · exact hreads.elim

end Safe

/-- A cluster that is not safe makes the shortest read panic. -/
theorem readFile_panics (hc : ¬ Ends c) (hn : HasChain p d c n) (h : ¬ ClusterSafe p d c) :
    ((readFile p c 1).run (onDisk p) d).1 = .panic := by
  obtain ⟨n, rfl⟩ : ∃ k, n = k + 1 :=
    Nat.exists_eq_succ_of_ne_zero fun h => hc (by subst h; exact hn.ends.2)
  have hread : onDisk p (.readCluster c) d = (.panic, d) := readCluster_panics hc h
  rw [readFile, run_bind, bind_of_ok _ (run_clusterChain hn), run_bind, iterate,
    readClusters, if_neg (by simp), run_bind, readCluster, run_ofCall]
  rw [bind_of_panic _ (bind_of_panic _ hread)]

theorem bytesPerCluster_of_parse {boot : Bytes} (h : Fat32Params.parse boot = .ok p) :
    p.bytesPerCluster = p.bytesPerSector * p.sectorsPerCluster := by
  rw [Fat32Params.parse] at h
  split_ifs at h <;> obtain rfl := Outcome.ok.inj h <;> rfl

end Reads

/-! ### Sectors of 1024 bytes -/

/-- The bytes of an image that are not zero: its boot sector, and the entry of the root directory in
the FAT. -/
def wideByte : ℕ → ℕ → UInt8
  | 0, 12 => 4
  | 0, 13 => 1
  | 0, 14 => 1
  | 0, 16 => 1
  | 0, 32 => 3
  | 0, 36 => 1
  | 0, 44 => 2
  | 0, 510 => 0x55
  | 0, 511 => 0xAA
  | 1, 8 => 0xF8
  | 1, 9 => 0xFF
  | 1, 10 => 0xFF
  | 1, 11 => 0x0F
  | _, _ => 0

def wideImage : Disk where
  sectors s := ⟨List.ofFn fun i : Fin 512 => wideByte s i, List.length_ofFn⟩
  size := 3

def wideParams : Fat32Params where
  bytesPerSector := 1024
  sectorsPerCluster := 1
  numFats := 1
  totalSectors := 3
  sectorsPerFat := 1
  rootCluster := 2
  fatStartSector := 1
  dataStartSector := 2
  bytesPerCluster := 1024

theorem parse_wideImage : Fat32Params.parse (wideImage.sectors 0).1 = .ok wideParams := by
  decide +kernel

theorem listDir_wideImage :
    ((listDir id wideParams ['/']).run (onDisk wideParams) wideImage).1 = .panic := by
  decide +kernel

end Maios.Fat32
