import Mathlib.Data.List.Perm.Subperm
import Maios.Fat32.RoundTrip

/-!
# Calls that fail

A call that needs more clusters than are free takes all of them, one by one, before it gives up, and
nothing gives them back. Writing a file frees the clusters of the old one first, and looks for the
entry to update last. So what a failure leaves is the volume before the call only if the call fails
before it has taken or freed anything.

## Main results

* `failed_call_unharmed` — a failed call does no harm if what it was to take is free or nothing is
-/

namespace Maios.Fat32

open List Vol

/-- The calls that take clusters. -/
inductive SpaceOp where
  | allocateChain (count : ℕ)
  | extendChain (lastCluster additional : ℕ)
  | writeFile (dirCluster : ℕ) (name : Name) (data : Bytes)

/-- No cluster has been taken or freed, and a file that could be found and read still can. -/
structure Unharmed (upper : Name → Name) (p : Fat32Params) (d d' : Disk) : Prop where
  free : ∀ c, p.Valid c → ((view p d').fat c = fat32Free ↔ (view p d).fat c = fat32Free)
  files : ∀ dir name e, IsDir p (view p d) dir →
    ((findEntry upper dir name).run (onDisk p) d).1 = .ok (some e) →
      ((findEntry upper dir name).run (onDisk p) d').1 = .ok (some e) ∧
        ∀ bytes, ((readFile p e.cluster e.fileSize).run (onDisk p) d).1 = .ok bytes →
          ((readFile p e.cluster e.fileSize).run (onDisk p) d').1 = .ok bytes

namespace SpaceOp

variable (upper : Name → Name) (p : Fat32Params)

def prog : SpaceOp → DriverM Unit
  | allocateChain count => do
    let _ ← Fat32.allocateChain p count
    pure ()
  | extendChain lastCluster additional => do
    let _ ← Fat32.extendChain p lastCluster additional
    pure ()
  | writeFile dirCluster name data => Fat32.writeFile upper p dirCluster name data

/-- The call is given a cluster, or a directory, of the volume. -/
def On (v : Vol p.bytesPerCluster) : SpaceOp → Prop
  | allocateChain _ => True
  | extendChain lastCluster _ => p.Valid lastCluster
  | writeFile dirCluster _ _ => IsDir p v dirCluster

/-- A failure does no harm. -/
def Undone (d : Disk) (op : SpaceOp) : Prop :=
  ∀ e d', (op.prog upper p).run (onDisk p) d = (.err e, d') → Unharmed upper p d d'

/-- The call writes a file of a name that is found. -/
def Overwrites (v : Vol p.bytesPerCluster) : SpaceOp → Prop
  | writeFile dirCluster name _ =>
    ∀ ds, Chain p v.fat dirCluster ds → findSlot upper name (v.slots ds) ≠ none
  | _ => False

/-- What is to be taken is free, or nothing is. A new file also needs a slot or one more cluster. The
clusters of an old file count as free, but then the entry has to be there for the update; if it is
not, there must be nothing to free or to take. A chain that is too long is noticed in time. -/
def Spares (v : Vol p.bytesPerCluster) : SpaceOp → Prop
  | allocateChain count => count ≤ v.freeCount p ∨ v.freeCount p = 0
  | extendChain _ additional => additional ≤ v.freeCount p ∨ v.freeCount p = 0
  | writeFile dirCluster name data =>
    ∀ ds olds needed, Chain p v.fat dirCluster ds →
      Clusters p v.fat (foundCluster upper name (v.slots ds)) olds →
      clustersNeeded p.bytesPerCluster data.length = some needed → ds.length ≤ maxChain →
      match findSlot upper name (v.slots ds) with
      | none => v.freeCount p = 0 ∨ needed < v.freeCount p ∨
          needed = v.freeCount p ∧ freeSlot (v.slots ds) < (v.slots ds).length
      | some _ => maxChain < olds.length ∨ olds = [] ∧ (needed = 0 ∨ v.freeCount p = 0) ∨
          needed ≤ (v.freeAll olds).freeCount p ∧ ∃ k, targetSlot name (v.slots ds) = .hit k

end SpaceOp

section Count

variable {p : Fat32Params} {v v₁ : Vol p.bytesPerCluster} {first : ℕ} {cs news : List ℕ}

/-- There are not more free clusters than the volume has. -/
theorem length_le_freeCount (hnodup : cs.Nodup)
    (h : ∀ c ∈ cs, p.Valid c ∧ v.fat c = fat32Free) : cs.length ≤ v.freeCount p := by
  rw [freeCount, countP_eq_length_filter]
  refine (subperm_of_subset hnodup fun c hc => mem_filter.mpr ⟨?_, ?_⟩).length_le
  · exact mem_range'_limit.mpr (h c hc).1
  · exact decide_eq_true (h c hc).2

section

variable (h : Fresh p v v₁ first news)

include h

theorem Fresh.length_le : news.length ≤ v.freeCount p :=
  length_le_freeCount h.clusters.nodup fun c hc => ⟨h.clusters.valid hc, h.free c hc⟩

/-- What was free is free or among the new clusters. -/
theorem Fresh.freeCount_le : v.freeCount p ≤ v₁.freeCount p + news.length := by
  rw [freeCount, freeCount, countP_eq_length_filter, countP_eq_length_filter,
    ← length_append]
  refine (subperm_of_subset (Nodup.filter _ nodup_range') fun c hc => ?_)
    |>.length_le
  obtain ⟨hrange, hfree⟩ := mem_filter.mp hc
  by_cases hnew : c ∈ news
  · exact mem_append_right _ hnew
  · rw [← h.fat c hnew] at hfree
    exact mem_append_left _ (mem_filter.mpr ⟨hrange, hfree⟩)

theorem Fresh.eq (hnone : news.length = 0 ∨ v.freeCount p = 0) : v₁ = v := by
  have hle := h.length_le
  obtain rfl : news = [] := length_eq_zero_iff.mp (by omega)
  exact Vol.ext (funext fun c => h.fat c not_mem_nil)
    (funext fun c => h.data c not_mem_nil)

end

theorem freeCount_exhausted : (v.exhausted p).freeCount p = 0 := by
  refine freeCount_eq_zero.mpr fun c hc => ?_
  show (if _ then endMark else v.fat c) ≠ _
  split_ifs with h
  · decide
  · exact fun hfree => h ⟨hc, hfree⟩

end Count

section Calls

variable {p : Fat32Params} (g : Geometry p) {v : Vol p.bytesPerCluster}
  {S : Vol p.bytesPerCluster → Prop} {upper : Name → Name}

include g

theorem leaves_allocateChain_le (count : ℕ) (hR : v.freeCount p < count → S (v.exhausted p)) :
    Leaves p (allocateChain p count) v S fun cs _ =>
      cs.length = count ∧ count ≤ v.freeCount p ∧ ∀ c ∈ cs, p.Valid c := by
  rcases Nat.eq_zero_or_pos count with rfl | hcount
  · exact ⟨rfl, Nat.zero_le _, forall_mem_nil _⟩
  · refine leaves_allocateChain g hcount hR fun first cs v₁ hlen _ hfresh => ⟨hlen, ?_, ?_⟩
    · exact hlen ▸ hfresh.length_le
    · exact fun c hc => hfresh.clusters.valid hc

theorem leaves_extendChain_le {last : ℕ} (hlast : p.Valid last) (additional : ℕ)
    (hR : v.freeCount p < additional → S (v.exhausted p)) :
    Leaves p (extendChain p last additional) v S fun _ _ => additional ≤ v.freeCount p := by
  rw [extendChain]
  split_ifs with hzero
  · exact hzero ▸ Nat.zero_le _
  rw [leaves_bind]
  refine Act.wp.mono (leaves_allocateChain_le g additional hR) ?_ fun _ _ => id
  rintro (_ | ⟨new, rest⟩) v₁ ⟨hlen, hle, hvalid⟩
  · exact absurd hlen.symm hzero
  · refine leaves_bind.mpr ?_
    exact leaves_setFatEntry hlast (g.valid_lt_two_pow (hvalid new mem_cons_self)) hle

/-- A new file has been written: its clusters were free, and so was a cluster for the directory if
there was no slot. -/
theorem Edit.length_le {v' : Vol p.bytesPerCluster} {dir first size k : ℕ} {ds ext news : List ℕ}
    {name : Name} {slots : List Bytes} (h : Edit p v v' dir ds ext [] news first slots)
    (hnone : findSlot upper name (v.slots ds) = none)
    (hwritten : writtenSlots upper p.slotsPerCluster name first size (v.slots ds) = some (k, slots)) :
    news.length ≤ v.freeCount p ∧
      (news.length = v.freeCount p → freeSlot (v.slots ds) < (v.slots ds).length) := by
  have hnodup : (ext ++ news).Nodup := nodup_append'.mpr
    ⟨(nodup_append'.mp h.chain.nodup).2.1, h.clusters.nodup, fun c hc => h.apart c hc⟩
  have hle : (ext ++ news).length ≤ v.freeCount p := by
    refine length_le_freeCount hnodup fun c hc => ⟨?_, ?_⟩
    · rcases mem_append.mp hc with hc | hc
      · exact h.chain.ok_of_mem (mem_append_right _ hc)
      · exact h.clusters.valid hc
    · exact (h.fresh c (mem_append.mp hc)).2.resolve_right not_mem_nil
  rw [length_append] at hle
  refine ⟨by omega, fun heq => ?_⟩
  obtain rfl : ext = [] := length_eq_zero_iff.mp (by omega)
  by_contra hfull
  have hlen := congrArg length h.slots
  rcases writtenSlots_cases hwritten with ⟨_, _, _, hfind, -⟩ | ⟨-, rfl, rfl⟩
  · cases hfind.symm.trans hnone
  · rw [putSlot, if_neg hfull, length_append, append_nil, length_slots g,
      length_slots g, length_cons] at hlen
    omega

variable (hcon : Consistent p v) {op : SpaceOp} (hop : op.On p v)

include hcon hop

/-- **What such a call leaves when it fails is the volume as it was.** -/
theorem SpaceOp.Spares.leaves (h : op.Spares upper p v) :
    Leaves p (op.prog upper p) v (· = v) fun _ _ => True := by
  have hsame : ∀ {count}, count ≤ v.freeCount p ∨ v.freeCount p = 0 → v.freeCount p < count →
      v.exhausted p = v := fun hcond hlt => exhausted_eq (by omega)
  cases op with
  | allocateChain count =>
    rw [prog, leaves_bind]
    exact Act.wp.mono (leaves_allocateChain_le g count (hsame h)) (fun _ _ _ => trivial)
      fun _ _ => id
  | extendChain last additional =>
    rw [prog, leaves_bind]
    exact Act.wp.mono (leaves_extendChain_le g hop additional (hsame h)) (fun _ _ _ => trivial)
      fun _ _ => id
  | writeFile dir name data =>
    obtain ⟨ds, hds⟩ := hcon.chain_of_isDir hop
    obtain ⟨needed, hneeded⟩ := g.clustersNeeded data.length
    obtain ⟨olds, hold, holds⟩ := hcon.freesApart hop hds upper name
    have hcond := h ds olds needed hds hold hneeded
    refine leaves_writeFile g hds hneeded hold holds (fun _ => rfl) (fun _ => rfl) ?_ ?_ ?_
      fun _ _ _ _ _ _ _ _ _ _ _ _ => trivial
    all_goals
      rcases hfind : findSlot upper name (v.slots ds) with _ | found
      all_goals simp only [hfind] at hcond
    · obtain rfl : olds = [] := hold.eq_nil (by rw [foundCluster, hfind]; decide)
      intro hlen _ hlt
      change v.freeCount p < needed at hlt
      exact exhausted_eq (v := v) (by omega)
    · intro hlen hlen' hlt
      rcases hcond hlen with hlong | ⟨rfl, hnone⟩ | ⟨hroom, -⟩
      · omega
      · change v.freeCount p < needed at hlt
        exact exhausted_eq (v := v) (by omega)
      · omega
    · exact fun _ _ hne => absurd rfl hne
    · intro hlen hlen' _ hmiss first news v₁ hcount hfresh
      rcases hcond hlen with hlong | ⟨rfl, hnone⟩ | ⟨-, k, hhit⟩
      · omega
      · exact hfresh.eq (hcount ▸ hnone)
      · exact absurd hhit (hmiss k)
    · intro hlen _ hlast first news v₁ hcount hfresh hzero
      have hle := hfresh.freeCount_le
      exact hfresh.eq (by omega)
    · simp

end Calls

section Disks

variable {p : Fat32Params} (g : Geometry p) {d : Disk} (hsize : p.totalSectors ≤ d.size)
  {upper : Name → Name} {op : SpaceOp}

include g hsize

/-- A disk that shows the same volume shows the same files. -/
theorem Unharmed.of_view_eq (hcon : Consistent p (view p d)) {d' : Disk}
    (hsize' : p.totalSectors ≤ d'.size) (h : view p d' = view p d) : Unharmed upper p d d' := by
  refine ⟨fun c _ => by rw [h], fun dir name e hdir hfind => ?_⟩
  obtain ⟨ds, hds⟩ := hcon.chain_of_isDir hdir
  obtain ⟨cs, hcs, -⟩ := hcon.freesApart hdir hds upper name
  have hfound := (findEntry_ok_iff g hsize hds).mp hfind
  obtain ⟨⟨k, e'⟩, hslot, rfl⟩ := Option.map_eq_some_iff.mp hfound.2.symm
  rw [foundCluster, hslot] at hcs
  refine ⟨(findEntry_ok_iff g hsize' (h.symm ▸ hds)).mpr (h.symm ▸ hfound), fun bytes hread => ?_⟩
  rw [readFile_ok_iff g hsize hcs] at hread
  exact (readFile_ok_iff g hsize' (h.symm ▸ hcs)).mpr (h.symm ▸ hread)

/-- A call that takes the last free clusters and fails does harm. -/
theorem SpaceOp.Undone.not_leaves (h : op.Undone upper p d) (hfree : (view p d).freeCount p ≠ 0) :
    ¬ Leaves p (op.prog upper p) (view p d) (fun v' => v'.freeCount p = 0) fun _ _ => False := by
  intro hleaves
  rcases hleaves.onDisk g hsize with ⟨_, _, _, _, hfalse⟩ | ⟨e, d', hrun, _, hzero⟩
  · exact hfalse
  · refine hfree (freeCount_eq_zero.mpr fun c hc hfree => ?_)
    exact freeCount_eq_zero.mp hzero c hc (((h e d' hrun).free c hc).mpr hfree)

theorem SpaceOp.Undone.spares (hop : op.On p (view p d))
    (hover : ¬ op.Overwrites upper p (view p d)) (h : op.Undone upper p d) :
    op.Spares upper p (view p d) := by
  cases op with
  | allocateChain count =>
    by_contra hbad
    rw [Spares, not_or] at hbad
    refine h.not_leaves g hsize hbad.2 ?_
    rw [prog, leaves_bind]
    exact Act.wp.mono (leaves_allocateChain_le g count fun _ => freeCount_exhausted)
      (fun _ _ hcs => hbad.1 hcs.2.1) fun _ _ => id
  | extendChain last additional =>
    by_contra hbad
    rw [Spares, not_or] at hbad
    refine h.not_leaves g hsize hbad.2 ?_
    rw [prog, leaves_bind]
    exact Act.wp.mono (leaves_extendChain_le g hop additional fun _ => freeCount_exhausted)
      (fun _ _ hle => hbad.1 hle) fun _ _ => id
  | writeFile dir name data =>
    intro ds olds needed hds hold hneeded hlen
    have hfind : findSlot upper name ((view p d).slots ds) = none := by
      by_contra hne
      exact hover fun ds' hds' => Thread.eq hds' hds ▸ hne
    obtain rfl : olds = [] := hold.eq_nil (by rw [foundCluster, hfind]; decide)
    simp only [hfind]
    by_contra hbad
    rw [not_or] at hbad
    refine h.not_leaves g hsize hbad.1 (leaves_writeFile g hds hneeded hold
      (forall_mem_nil _) (fun hlong => absurd hlen (not_le.mpr hlong))
      (fun hlong => absurd hlong (Nat.not_lt_zero _)) (fun _ _ _ => freeCount_exhausted)
      (fun _ _ hne => absurd hfind hne) (fun _ _ _ _ _ _ _ _ hzero => hzero) ?_)
    rintro ext news first v' k slots - rfl - hwritten hedit -
    have := hedit.length_le g hfind hwritten
    omega

/-- **A failed call does no harm if what it was to take is free or nothing is**, for every consistent
volume and every call that allocates clusters, extends a chain or writes a file; for a file that replaces
another one, if the entry is where the update looks for it. Unless a file is replaced, the condition
is also necessary. -/
theorem failed_call_unharmed (hcon : Consistent p (view p d)) (hop : op.On p (view p d)) :
    (op.Spares upper p (view p d) → op.Undone upper p d) ∧
      (¬ op.Overwrites upper p (view p d) → op.Undone upper p d → op.Spares upper p (view p d)) := by
  refine ⟨fun h e d' hrun => ?_, fun hover hundone => hundone.spares g hsize hop hover⟩
  rcases (h.leaves g hcon hop).onDisk g hsize with ⟨_, _, hok, -⟩ | ⟨e', d'', hrun', hsize', hview⟩
  · cases hrun.symm.trans hok
  · obtain ⟨-, rfl⟩ := Prod.mk.inj (hrun.symm.trans hrun')
    exact .of_view_eq g hsize hcon hsize' hview

end Disks

/-- The small volume has five free clusters. -/
theorem failed_call_unharmed_five :
    (SpaceOp.allocateChain 5).Undone asciiUpper smallParams (smallDisk []) ∧
      ¬ (SpaceOp.allocateChain 6).Undone asciiUpper smallParams (smallDisk []) := by
  have hfive : (view smallParams (smallDisk [])).freeCount smallParams = 5 := by decide +kernel
  have h := fun n => @failed_call_unharmed smallParams smallParams_geometry (smallDisk [])
    (by decide) asciiUpper (.allocateChain n) emptyDisk_wellFormed.toConsistent trivial
  refine ⟨(h 5).1 (.inl hfive.ge), fun hundone => ?_⟩
  rcases (h 6).2 id hundone with hle | hzero <;> omega

/-- A file of six clusters. -/
def largeWrite : SpaceOp := .writeFile 2 "a".toList (List.replicate 2561 0x41)

/-- **A file that does not fit takes all the space.** The volume has five free clusters, and a write
that needs six fails and leaves none. -/
theorem failed_write_takes_clusters :
    Geometry smallParams ∧ smallParams.totalSectors ≤ (smallDisk []).size ∧
      WellFormed smallParams (view smallParams (smallDisk [])) ∧
      ¬ largeWrite.Undone asciiUpper smallParams (smallDisk []) := by
  refine ⟨smallParams_geometry, by decide, emptyDisk_wellFormed, fun h => ?_⟩
  have herr : ((largeWrite.prog asciiUpper smallParams).run (onDisk smallParams) (smallDisk [])).1 =
      .err "FAT32: no free clusters" := by
    decide +kernel
  have htaken : (view smallParams ((largeWrite.prog asciiUpper smallParams).run (onDisk smallParams)
      (smallDisk [])).2).fat 3 ≠ fat32Free := by
    decide +kernel
  rcases hrun : (largeWrite.prog asciiUpper smallParams).run (onDisk smallParams) (smallDisk []) with
    ⟨o, d'⟩
  rw [hrun] at herr htaken
  obtain rfl : o = .err "FAT32: no free clusters" := herr
  exact htaken (((h _ d' hrun).free 3 (by decide)).mpr (by decide +kernel))

end Maios.Fat32
