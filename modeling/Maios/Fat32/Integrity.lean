import Maios.Fat32.Isolation
import Maios.Library.Run

/-!
# The chains of the volume over a run of calls

A volume is well-formed if the chains of its directories and files exist, have no cluster in common
and are all that is in use. Here are the calls that change a volume, and when they keep it
well-formed: each replaces the entry of one slot, frees the clusters of the old entry and takes those
of the new one, provided that the slot is the right one, that the new entry is shown, and that no
directory with files is freed.

The driver frees the chain of a directory together with its entry and does not look into the
directory. The chains of the files in it stay in use and belong to nothing.

## Main results

* `chains_intact` — the volume stays well-formed along every run of such calls
-/

namespace Maios.Fat32

open DirEntry83

variable {p : Fat32Params}

/-! ### Calls -/

/-- What is done in a directory under a name. -/
inductive DirOp where
  | write (data : Bytes)
  | delete
  | create (attr : UInt8) (fileSize : ℕ)
  | insertFile
  | insertDir
  | remove

structure Call where
  dir : ℕ
  name : Name
  op : DirOp

def Call.prog (upper : Name → Name) (p : Fat32Params) (call : Call) : DriverM Unit :=
  match call.op with
  | .write data => writeFile upper p call.dir call.name data
  | .delete => deleteFile call.dir call.name
  | .create attr fileSize => createDirEntry p call.dir call.name attr 0 fileSize
  | .insertFile => insertFile p call.dir call.name
  | .insertDir => insertDir p call.dir call.name
  | .remove => deleteFile call.dir call.name

def Call.step (upper : Name → Name) (p : Fat32Params) (d : Disk) (call : Call) : Disk :=
  ((call.prog upper p).run (onDisk p) d).2

/-- The slot of a new directory, but for its cluster. -/
def newDirSlot (name : Name) : Bytes :=
  (DirEntry83.ofCluster (nameTo83 name) attrDirectory 0 0).toBytes

/-- A new entry for the name neither ends the directory nor uncovers slots behind its end. -/
def Appends (name : Name) (slots : List Bytes) : Prop :=
  Sealed slots ∧ (nameTo83 name).1.getD 0 0 ≠ 0x00

instance (name : Name) (slots : List Bytes) : Decidable (Appends name slots) :=
  inferInstanceAs (Decidable (_ ∧ _))

/-- The slot that is deleted shows an entry, which is no directory with clusters in it, or it has no
clusters. -/
def Deletes (p : Fat32Params) (v : Vol p.bytesPerCluster) (name : Name) (slots : List Bytes) : Prop :=
  ∀ k s, targetSlot name slots = .hit k → slots[k]? = some s →
    slotCluster s < 2 ∨
      ∃ n e, shownAt slots k = some (n, e) ∧ (e.isDir = true → Hollow p v e.cluster)

/-- A file is written to the slot at which its name is found. Only nothing is written to a directory,
and only if no entry of it has clusters. A new file with clusters is shown. -/
def Writes (upper : Name → Name) (p : Fat32Params) (v : Vol p.bytesPerCluster) (name : Name)
    (slots : List Bytes) (data : Bytes) : Prop :=
  match findSlot upper name slots with
  | some (j, e) => (∀ k, targetSlot name slots = .hit k → k = j) ∧
      (e.isDir = true → data = [] ∧ Hollow p v e.cluster)
  | none => Appends name slots ∧ (data ≠ [] →
      shownAt (putSlot p.slotsPerCluster slots (freeSlot slots) (newSlot name)) (freeSlot slots) ≠
        none)

/-- The call keeps the volume well-formed. -/
def Keeps (upper : Name → Name) (p : Fat32Params) (v : Vol p.bytesPerCluster) (name : Name)
    (slots : List Bytes) : DirOp → Prop
  | .write data => Writes upper p v name slots data
  | .delete => Deletes p v name slots
  | .create attr _ => Appends name slots ∧ attr ≠ attrLfn
  | .insertFile => Appends name slots
  | .insertDir => Appends name slots ∧
      shownAt (putSlot p.slotsPerCluster slots (freeSlot slots) (newDirSlot name)) (freeSlot slots) ≠
        none
  | .remove => Deletes p v name slots

/-- The call succeeds in a directory of the volume, and it keeps the volume well-formed. -/
def Call.Guard (upper : Name → Name) (p : Fat32Params) (d : Disk) (call : Call) : Prop :=
  ((call.prog upper p).run (onDisk p) d).1 = .ok () ∧ IsDir p (view p d) call.dir ∧
    ∀ ds, Chain p (view p d).fat call.dir ds →
      Keeps upper p (view p d) call.name ((view p d).slots ds) call.op

/-! ### What one call preserves -/

variable {attr : UInt8} {size : ℕ} {op : DirOp}

section Settles

variable {v v' : Vol p.bytesPerCluster} {dir first k m : ℕ} {ds ext olds news : List ℕ}
  {slots : List Bytes} {upper : Name → Name} {name : Name} {data : Bytes}

/-- A new entry owns its clusters if it is shown or has none. -/
theorem settles_create (hfirst : first < 2 ^ 32)
    (hhollow : attr &&& attrDirectory ≠ 0 → Hollow p v' first)
    (hnone : shownAt (putSlot m slots (freeSlot slots)
      (ofCluster (nameTo83 name) attr first size).toBytes) (freeSlot slots) = none →
        news = []) :
    Settles p v' news first (freeSlot slots) (putSlot m slots (freeSlot slots)
      (ofCluster (nameTo83 name) attr first size).toBytes) := by
  refine ⟨fun n e hshown => ?_, hnone⟩
  obtain ⟨-, hattr, hcluster⟩ := shownAt_fields (getElem?_putSlot _) hshown
  rw [slotCluster_ofCluster _ _ hfirst] at hcluster
  rw [slotAttr_ofCluster] at hattr
  rw [isDir, hattr, hcluster]
  exact ⟨rfl, fun hdir => hhollow (of_decide_eq_true hdir)⟩

/-- Whether a new entry is shown does not depend on its cluster and its size. -/
theorem shownAt_create_eq_none {first' size' : ℕ}
    (h : shownAt (putSlot m slots (freeSlot slots)
      (ofCluster (nameTo83 name) attr first size).toBytes) (freeSlot slots) = none) :
    shownAt (putSlot m slots (freeSlot slots)
      (ofCluster (nameTo83 name) attr first' size').toBytes) (freeSlot slots) = none := by
  have hsame := shownAt_putSlot_name m slots
    (length_toBytes (ofCluster (nameTo83 name) attr first' size'))
    (length_toBytes (ofCluster (nameTo83 name) attr first size))
    ((take_ofCluster _ _ _ _).trans (take_ofCluster _ _ _ _).symm)
  rw [h] at hsame
  exact Option.map_eq_none_iff.mp hsame.symm

/-- A file owns the clusters that were taken for its data. -/
theorem Written.settles (g : Geometry p)
    (h : Written upper p v v' dir ds name data ext olds news first k slots)
    (hwrites : Writes upper p v name (v.slots ds) data) : Settles p v' news first k slots := by
  have hempty : data = [] → news = [] := by
    rintro rfl
    exact List.length_eq_zero_iff.mp (Option.some.inj h.needed).symm
  have hfirst : first < 2 ^ 32 := lt_trans h.first_lt (by decide)
  rcases writtenSlots_cases h.written with
    ⟨j, e, s, hfind, htarget, hs, ⟨hhead, hattr⟩, rfl⟩ | ⟨hnone, rfl, rfl⟩
  · rw [Writes, hfind] at hwrites
    obtain ⟨htarget', hdir⟩ := hwrites
    obtain rfl := htarget' k htarget
    have hlen : s.length = 32 := Vol.length_of_mem_slots g (List.mem_of_getElem? hs)
    obtain ⟨n, hshown⟩ := shownAt_of_findSlot hfind
    have hsame := (shownAt_update hs hlen hhead hattr first (data.length % 2 ^ 32)).2
    rw [hshown] at hsame
    constructor
    · intro n' e' hshown'
      have hlt : k < (v.slots ds).length := (getElem?_eq_some_iff.mp hs).1
      obtain ⟨-, -, hcluster⟩ := shownAt_fields (List.getElem?_set_self hlt) hshown'
      rw [slotCluster_updateSlot hlen hfirst] at hcluster
      rw [hshown'] at hsame
      have hattr' : e'.attr = e.attr := (Prod.mk.inj (Option.some.inj hsame)).2
      refine ⟨hcluster, fun hdir' => ?_⟩
      rw [isDir, hattr'] at hdir'
      -- nothing is written to a directory
      have hnews := h.edit.clusters
      rw [hempty (hdir hdir').1] at hnews
      rw [hcluster]
      exact hollow_of_lt hnews.lt_two
    · intro hnone
      rw [hnone] at hsame
      cases hsame
  · rw [Writes, hnone] at hwrites
    refine settles_create hfirst (fun hdir => absurd rfl hdir) fun hhidden => hempty ?_
    by_contra hdata
    exact hwrites.2 hdata (shownAt_create_eq_none hhidden)

end Settles

theorem shownAt_skipped {s t : Bytes} (hs : slotEntry [] s = none) (hs' : afterSlot [] s = some [])
    (ht : slotEntry [] t = none) (ht' : afterSlot [] t = some []) (m k : ℕ) :
    shownAt (s :: t :: List.replicate m (List.replicate 32 0)) k = none := by
  rcases k with _ | _ | k
  · exact hs
  · rw [shownAt, shownFrom, hs']
    exact ht
  · rw [shownAt, shownFrom, hs', Option.bind_some, shownFrom, ht']
    rcases m with _ | m
    · rfl
    · exact shownFrom_of_head rfl

/-- The entries of a new directory for itself and its parent are skipped, whatever their clusters. -/
theorem slotEntry_dots (first : ℕ) :
    slotEntry [] (ofCluster dotName attrDirectory first 0).toBytes = none ∧
      slotEntry [] (ofCluster dotDotName attrDirectory first 0).toBytes = none := by
  have hskip : ∀ name : Storage.Block 11,
      slotEntry [] (ofCluster name attrDirectory 0 0).toBytes = none →
        slotEntry [] (ofCluster name attrDirectory first 0).toBytes = none := by
    intro name hnone
    rw [slotEntry_of_take (length_toBytes (ofCluster name attrDirectory 0 0))
      (length_toBytes _) ((take_ofCluster _ _ _ _).trans (take_ofCluster _ _ _ _).symm), hnone]
    rfl
  exact ⟨hskip dotName (by decide), hskip dotDotName (by decide)⟩

/-- A new directory shows nothing. -/
theorem shownAt_newDir (c dir m k : ℕ) :
    shownAt ((ofCluster dotName attrDirectory c 0).toBytes ::
      (ofCluster dotDotName attrDirectory dir 0).toBytes ::
        List.replicate m (List.replicate 32 0)) k = none :=
  shownAt_skipped (slotEntry_dots c).1 (afterSlot_ofCluster (by decide) (by decide) _ _ _)
    (slotEntry_dots dir).2 (afterSlot_ofCluster (by decide) (by decide) _ _ _) m k

section Calls

variable (g : Geometry p) {v : Vol p.bytesPerCluster} (hwf : WellFormed p v) {dir : ℕ} {ds : List ℕ}
  (hdir : IsDir p v dir) (hds : Chain p v.fat dir ds) {upper : Name → Name} {name : Name}

include g hwf hdir hds

theorem does_writeFile_wellFormed {data : Bytes} (h : Writes upper p v name (v.slots ds) data) :
    Does p (writeFile upper p dir name data) v True fun _ v' => WellFormed p v' := by
  refine (does_writeFile_written g hds (hwf.freesApart hdir hds upper name) data).mono id ?_
  rintro _ v' ⟨ext, olds, news, first, k, slots, hwritten⟩
  refine EditAt.wellFormed (hwritten.editAt g hdir hds (fun j e hfind => ?_) fun hnone => ?_)
    (hwritten.settles g h) hwf
  · rw [Writes, hfind] at h
    exact ⟨h.1, fun hdir' => (h.2 hdir').2⟩
  · rw [Writes, hnone] at h
    exact h.1

theorem does_deleteFile_wellFormed (h : Deletes p v name (v.slots ds)) :
    Does p (deleteFile dir name) v True fun _ v' => WellFormed p v' := by
  refine (does_deleteFile_editAt g hwf.toConsistent hdir hds name h).mono id ?_
  rintro _ v' ⟨olds, k, slots, hedit, -, -, hnone⟩
  refine hedit.wellFormed ⟨fun n e hshown => ?_, fun _ => rfl⟩ hwf
  cases hnone.symm.trans hshown

theorem does_createDirEntry_wellFormed (h : Appends name (v.slots ds)) (hattr : attr ≠ attrLfn) :
    Does p (createDirEntry p dir name attr 0 size) v True fun _ v' => WellFormed p v' := by
  refine does_createDirEntry_edit g hds name attr size (fun _ => trivial) trivial fun ext v' hedit => ?_
  refine (hedit.at_create hdir hds (afterSlot_ofCluster h.2 hattr _ _) h.1).wellFormed ?_ hwf
  exact settles_create (by decide) (fun _ => hollow_of_lt (by decide)) fun _ => rfl

theorem does_insertDir_wellFormed (h : Appends name (v.slots ds))
    (hshown : shownAt (putSlot p.slotsPerCluster (v.slots ds) (freeSlot (v.slots ds))
      (newDirSlot name)) (freeSlot (v.slots ds)) ≠ none) :
    Does p (insertDir p dir name) v True fun _ v' => WellFormed p v' := by
  refine does_insertDir g hds name trivial fun ext c v' hedit hslots hc => ?_
  have hlt : c < 2 ^ 32 := lt_trans (g.valid_lt_two_pow hc) (by decide)
  refine (hedit.at_create hdir hds (afterSlot_ofCluster h.2 (by decide) _ _) h.1).wellFormed ?_ hwf
  refine settles_create hlt (fun _ => ?_) fun hnone => absurd (shownAt_create_eq_none hnone) hshown
  -- the new directory shows nothing
  intro k e he
  have hchain : Chain p v'.fat c [c] := hedit.clusters.chain hc.1
  obtain ⟨n, hshown'⟩ := (lists_iff hchain).mp he
  rw [hslots, shownAt_newDir] at hshown'
  cases hshown'

/-- **A call keeps the volume well-formed.** -/
theorem does_call (h : Keeps upper p v name (v.slots ds) op) :
    Does p (Call.prog upper p ⟨dir, name, op⟩) v True fun _ v' => WellFormed p v' := by
  cases op with
  | write data => exact does_writeFile_wellFormed g hwf hdir hds h
  | delete => exact does_deleteFile_wellFormed g hwf hdir hds h
  | create attr fileSize => exact does_createDirEntry_wellFormed g hwf hdir hds h.1 h.2
  | insertFile => exact does_createDirEntry_wellFormed g hwf hdir hds h (by decide)
  | insertDir => exact does_insertDir_wellFormed g hwf hdir hds h.1 h.2
  | remove => exact does_deleteFile_wellFormed g hwf hdir hds h

end Calls

theorem Call.step_wellFormed (g : Geometry p) {upper : Name → Name} {d : Disk} {call : Call}
    (hsize : p.totalSectors ≤ d.size) (hwf : WellFormed p (view p d)) (h : call.Guard upper p d) :
    p.totalSectors ≤ (call.step upper p d).size ∧ WellFormed p (view p (call.step upper p d)) := by
  obtain ⟨hok, hdir, hkeeps⟩ := h
  obtain ⟨ds, hds⟩ := hwf.chain_of_isDir hdir
  exact (does_call g hwf hdir hds (hkeeps ds hds)).of_ok g hsize (Prod.ext hok rfl)

/-- **The chains stay intact over every run of successful calls**, each of which goes to the slot of
its name, shows the entry it makes and frees no directory with files: from a well-formed volume on, no
cluster is in two chains, none is missing from a chain, and none is in use without belonging to one. -/
theorem chains_intact (g : Geometry p) (upper : Name → Name) (d : Disk)
    (hsize : p.totalSectors ≤ d.size) (hwf : WellFormed p (view p d)) (calls : List Call)
    (h : Guarded (Call.step upper p) (fun d call => call.Guard upper p d) d calls) :
    WellFormed p (view p (run (Call.step upper p) d calls)) :=
  (Guarded.invariant (I := fun d => p.totalSectors ≤ d.size ∧ WellFormed p (view p d))
    (fun _ _ hd hcall => Call.step_wellFormed g hd.1 hd.2 hcall) h ⟨hsize, hwf⟩).2

/-! ### Calls on the small volume -/

section Small

variable {d : Disk}

theorem small_root (h : fat32Eoc ≤ (view smallParams d).fat 2) :
    Chain smallParams (view smallParams d).fat 2 [2] :=
  .last (by decide) h

variable {name n : Name} {k : ℕ} {e : DirEntry83} {data : Bytes}
  (hroot : fat32Eoc ≤ (view smallParams d).fat 2)

include hroot

theorem small_guard
    (hok : ((Call.prog asciiUpper smallParams ⟨2, name, op⟩).run (onDisk smallParams) d).1 = .ok ())
    (hkeeps : Keeps asciiUpper smallParams (view smallParams d) name
      ((view smallParams d).slots [2]) op) : Call.Guard asciiUpper smallParams d ⟨2, name, op⟩ := by
  refine ⟨hok, .root, fun ds hds => ?_⟩
  rw [Thread.eq hds (small_root hroot)]
  exact hkeeps

theorem small_guard_write
    (hok : ((writeFile asciiUpper smallParams 2 name data).run (onDisk smallParams) d).1 = .ok ())
    (hnone : findSlot asciiUpper name ((view smallParams d).slots [2]) = none)
    (happends : Appends name ((view smallParams d).slots [2]))
    (hshown : shownAt (putSlot smallParams.slotsPerCluster ((view smallParams d).slots [2])
      (freeSlot ((view smallParams d).slots [2])) (newSlot name))
        (freeSlot ((view smallParams d).slots [2])) ≠ none) :
    Call.Guard asciiUpper smallParams d ⟨2, name, .write data⟩ := by
  refine small_guard hroot hok ?_
  rw [Keeps, Writes, hnone]
  exact ⟨happends, fun _ => hshown⟩

theorem small_guard_delete
    (hok : ((deleteFile 2 name).run (onDisk smallParams) d).1 = .ok ())
    (htarget : targetSlot name ((view smallParams d).slots [2]) = .hit k)
    (hshown : shownAt ((view smallParams d).slots [2]) k = some (n, e)) (hfile : e.isDir = false) :
    Call.Guard asciiUpper smallParams d ⟨2, name, .delete⟩ := by
  refine small_guard hroot hok fun k' s hk' hs => ?_
  obtain rfl : k = k' := Search.hit.inj (htarget.symm.trans hk')
  exact .inr ⟨n, e, hshown, fun hdir => (by cases hfile.symm.trans hdir)⟩

end Small

/-- A directory, a file and its deletion, in the root directory. -/
def tidyCalls : List Call :=
  [⟨2, "sub".toList, .insertDir⟩, ⟨2, "a".toList, .write [0x41]⟩, ⟨2, "a".toList, .delete⟩]

theorem chains_intact_tidy :
    WellFormed smallParams (view smallParams
      (run (Call.step asciiUpper smallParams) (smallDisk []) tidyCalls)) := by
  have hdir : Appends "sub".toList ((view smallParams (smallDisk [])).slots [2]) ∧
      shownAt (putSlot smallParams.slotsPerCluster ((view smallParams (smallDisk [])).slots [2])
        (freeSlot ((view smallParams (smallDisk [])).slots [2])) (newDirSlot "sub".toList))
          (freeSlot ((view smallParams (smallDisk [])).slots [2])) ≠ none := by
    decide +kernel
  have hfile : (ofCluster (nameTo83 "a".toList) attrArchive 4 1).isDir = false := by decide
  exact chains_intact smallParams_geometry asciiUpper (smallDisk []) (by decide)
    emptyDisk_wellFormed tidyCalls
    ⟨small_guard (by decide +kernel) (by decide +kernel) hdir,
      small_guard_write (by decide +kernel) (by decide +kernel) (by decide +kernel)
        (by decide +kernel) (by decide +kernel),
      small_guard_delete (k := 1) (n := "A".toList) (by decide +kernel) (by decide +kernel)
        (by decide +kernel) (by decide +kernel) hfile, trivial⟩

/-- A directory, a file in it and the removal of the directory. -/
def leakyCalls : List Call :=
  [⟨2, "sub".toList, .insertDir⟩, ⟨3, "a".toList, .write [0x41]⟩, ⟨2, "sub".toList, .remove⟩]

/-- **The removal of a directory can leave a cluster in use that belongs to nothing.** The file in the
directory keeps its cluster 4. -/
theorem chain_leaked :
    Geometry smallParams ∧ smallParams.totalSectors ≤ (smallDisk []).size ∧
      WellFormed smallParams (view smallParams (smallDisk [])) ∧
      Guarded (Call.step asciiUpper smallParams)
        (fun d call => ((call.prog asciiUpper smallParams).run (onDisk smallParams) d).1 = .ok () ∧
          IsDir smallParams (view smallParams d) call.dir) (smallDisk []) leakyCalls ∧
      ¬ WellFormed smallParams (view smallParams
        (run (Call.step asciiUpper smallParams) (smallDisk []) leakyCalls)) := by
  refine ⟨smallParams_geometry, by decide, emptyDisk_wellFormed,
    ⟨⟨by decide +kernel, .root⟩, ⟨by decide +kernel, ?_⟩, ⟨by decide +kernel, .root⟩, trivial⟩, ?_⟩
  · -- the new directory has cluster 3
    have hshown : shownAt ((view smallParams (Call.step asciiUpper smallParams (smallDisk [])
        ⟨2, "sub".toList, .insertDir⟩)).slots [2]) 0 = some ("SUB".toList,
          ofCluster (nameTo83 "sub".toList) attrDirectory 3 0) := by
      decide +kernel
    have hlists := (lists_iff (p := smallParams) (small_root (by decide +kernel))).mpr ⟨_, hshown⟩
    exact .sub .root hlists (by decide) (by decide)
  · have hroot : Chain smallParams (view smallParams
        (run (Call.step asciiUpper smallParams) (smallDisk []) leakyCalls)).fat 2 [2] :=
      small_root (by decide +kernel)
    exact not_wellFormed_of_root (x := 4) hroot (by decide +kernel) (by decide) (by decide)
      (by decide +kernel)

end Maios.Fat32
