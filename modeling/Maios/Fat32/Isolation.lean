import Maios.Fat32.RoundTrip

/-!
# Writing and deleting leave the other files alone

A call of `write_file` or `delete_file` replaces the entry of one slot. The files at other slots are
found as before and have the same contents if that slot is the one at which the name of the call is
found, or a free one whose new entry neither takes over the name of another file nor uncovers slots
behind the end of the directory, and if the call does not destroy a directory that shows files.

The driver does not see to this. It deletes the first entry with the eleven bytes made from the name,
and these are the same for `filename.txt` and `filename1.txt`.

## Main results

* `other_files_kept` — the files at other slots, after a call that isolates
-/

namespace Maios.Fat32

variable {p : Fat32Params}

/-! ### The calls as edits of one slot -/

variable {first size : ℕ} {v v' : Vol p.bytesPerCluster} {data : Bytes}

section EditAt

variable {v v' : Vol p.bytesPerCluster} {dir first k : ℕ} {ds ext olds news : List ℕ} {s : Bytes}
  {n : Name} {e : DirEntry83}

/-- An update of the slot that shows an entry. -/
theorem Edit.at_update (g : Geometry p) (hdir : IsDir p v dir) (hds : Chain p v.fat dir ds)
    (hs : (v.slots ds)[k]? = some s)
    (hedit : Edit p v v' dir ds ext olds news first ((v.slots ds).set k (updateSlot s 0 first size)))
    (hshown : shownAt (v.slots ds) k = some (n, e)) (holds : Clusters p v.fat e.cluster olds)
    (hhollow : e.isDir = true → Hollow p v e.cluster) :
    EditAt p v v' dir ds ext olds news first k
      ((v.slots ds).set k (updateSlot s 0 first size)) := by
  have hlen : s.length = 32 := Vol.length_of_mem_slots g (List.mem_of_getElem? hs)
  obtain ⟨⟨hhead, hattr⟩, -⟩ := shownAt_fields hs hshown
  refine ⟨hedit, hdir, hds, (shownAt_update hs hlen hhead hattr first size).1, ?_, ?_⟩
  · intro n' e' hshown'
    obtain rfl := snd_unique hshown hshown'
    exact ⟨holds, hhollow⟩
  · exact fun hnone => (by cases hshown.symm.trans hnone)

/-- A new entry in the free slot. -/
theorem Edit.at_create (hdir : IsDir p v dir) (hds : Chain p v.fat dir ds) {m : ℕ}
    (hedit : Edit p v v' dir ds ext [] news first (putSlot m (v.slots ds) (freeSlot (v.slots ds)) s))
    (hnew : ∀ lfn, afterSlot lfn s = some []) (hsealed : Sealed (v.slots ds)) :
    EditAt p v v' dir ds ext [] news first (freeSlot (v.slots ds))
      (putSlot m (v.slots ds) (freeSlot (v.slots ds)) s) := by
  refine ⟨hedit, hdir, hds, fun k' hk' => shownAt_putSlot_of_ne hnew hsealed hk', ?_, fun _ => rfl⟩
  exact fun n e hshown => (by cases hshown.symm.trans shownAt_freeSlot)

/-- A deleted entry. -/
theorem Edit.at_delete (g : Geometry p) (hdir : IsDir p v dir) (hds : Chain p v.fat dir ds)
    (hs : (v.slots ds)[k]? = some s) (hhead : slotHead s ≠ 0x00) (hattr : slotAttr s ≠ attrLfn)
    (hedit : Edit p v v' dir ds ext olds news first ((v.slots ds).set k (s.set 0 0xE5)))
    (hold : ∀ n e, shownAt (v.slots ds) k = some (n, e) →
      Clusters p v.fat e.cluster olds ∧ (e.isDir = true → Hollow p v e.cluster))
    (hnone : shownAt (v.slots ds) k = none → olds = []) :
    EditAt p v v' dir ds ext olds news first k ((v.slots ds).set k (s.set 0 0xE5)) := by
  have hlen : s.length = 32 := Vol.length_of_mem_slots g (List.mem_of_getElem? hs)
  exact ⟨hedit, hdir, hds, (shownAt_delete hs hlen hhead hattr).1, hold, hnone⟩

end EditAt

/-- The clusters that a slot names, if it shows its entry or has none. -/
theorem Consistent.clusters_of_slot (hcon : Consistent p v) {dir k : ℕ} {ds : List ℕ} {s : Bytes}
    (hdir : IsDir p v dir) (hds : Chain p v.fat dir ds) (hs : (v.slots ds)[k]? = some s)
    (hcond : slotCluster s < 2 ∨ ∃ n e, shownAt (v.slots ds) k = some (n, e) ∧
      (e.isDir = true → Hollow p v e.cluster)) :
    ∃ olds, Clusters p v.fat (slotCluster s) olds ∧ (∀ c ∈ olds, c ∉ ds) ∧
      (∀ n e, shownAt (v.slots ds) k = some (n, e) →
        Clusters p v.fat e.cluster olds ∧ (e.isDir = true → Hollow p v e.cluster)) ∧
      (shownAt (v.slots ds) k = none → olds = []) := by
  rcases hcond with hlt | ⟨n, e, hshown, hhollow⟩
  · refine ⟨[], .of_lt hlt, List.forall_mem_nil _, fun n e hshown => ?_, fun _ => rfl⟩
    obtain ⟨-, -, hcluster⟩ := shownAt_fields hs hshown
    rw [← hcluster] at hlt
    exact ⟨.of_lt hlt, fun _ => hollow_of_lt hlt⟩
  have hlists : Lists p v dir k e := (lists_iff hds).mpr ⟨n, hshown⟩
  obtain ⟨olds, holds⟩ := hcon.clusters_of_lists hdir hlists
  obtain ⟨-, -, hcluster⟩ := shownAt_fields hs hshown
  refine ⟨olds, hcluster ▸ holds, fun c hc => hcon.not_mem_of_lists hdir hds hlists holds hc,
    fun n' e' hshown' => ?_, fun hnone => (by cases hshown.symm.trans hnone)⟩
  obtain rfl := snd_unique hshown hshown'
  exact ⟨holds, hhollow⟩

/-- **Writing a file replaces the entry of one slot**, if it is written to the slot at which the name
is found, or else to a free slot that does not end the directory. -/
theorem Written.editAt (g : Geometry p) {dir k : ℕ} {ds ext olds news : List ℕ}
    {slots : List Bytes} {upper : Name → Name} {name : Name}
    (h : Written upper p v v' dir ds name data ext olds news first k slots) (hdir : IsDir p v dir)
    (hds : Chain p v.fat dir ds)
    (hfound : ∀ j e, findSlot upper name (v.slots ds) = some (j, e) →
      (∀ k, targetSlot name (v.slots ds) = .hit k → k = j) ∧
        (e.isDir = true → Hollow p v e.cluster))
    (hnew : findSlot upper name (v.slots ds) = none →
      Sealed (v.slots ds) ∧ (nameTo83 name).1.getD 0 0 ≠ 0x00) :
    EditAt p v v' dir ds ext olds news first k slots := by
  have hedit := h.edit
  have hold := h.old
  rcases writtenSlots_cases h.written with
    ⟨j, e, s, hfind, htarget, hs, -, rfl⟩ | ⟨hnone, rfl, rfl⟩
  · obtain ⟨htarget', hhollow⟩ := hfound j e hfind
    obtain rfl : k = j := htarget' k htarget
    obtain ⟨n, hshown⟩ := shownAt_of_findSlot hfind
    rw [foundCluster, hfind] at hold
    exact hedit.at_update g hdir hds hs hshown hold hhollow
  · rw [foundCluster, hnone] at hold
    obtain rfl : olds = [] := hold.eq_nil (by decide)
    obtain ⟨hsealed, hhead⟩ := hnew hnone
    exact hedit.at_create hdir hds (afterSlot_ofCluster hhead (by decide) _ _) hsealed

section Delete

variable (g : Geometry p) {v : Vol p.bytesPerCluster} (hcon : Consistent p v) {dir : ℕ} {ds : List ℕ}
  (hdir : IsDir p v dir) (hds : Chain p v.fat dir ds) (name : Name)

include g hcon hdir hds

/-- **Deleting a file replaces the entry of one slot**, if that slot shows its entry or has no
clusters. -/
theorem does_deleteFile_editAt
    (hcond : ∀ k s, targetSlot name (v.slots ds) = .hit k → (v.slots ds)[k]? = some s →
      slotCluster s < 2 ∨ ∃ n e, shownAt (v.slots ds) k = some (n, e) ∧
        (e.isDir = true → Hollow p v e.cluster)) :
    Does p (deleteFile dir name) v True fun _ v' =>
      ∃ olds k slots, EditAt p v v' dir ds [] olds [] 0 k slots ∧ ds.length ≤ maxChain ∧
        targetSlot name (v.slots ds) = .hit k ∧ shownAt slots k = none := by
  by_cases hhit : ∃ k, targetSlot name (v.slots ds) = .hit k
  · obtain ⟨k, hk⟩ := hhit
    obtain ⟨s, hs, hhead, hattr⟩ := targetSlot_eq_hit hk
    obtain ⟨olds, hclusters, holds, hold, hnone⟩ :=
      hcon.clusters_of_slot hdir hds hs (hcond k s hk hs)
    have hlen : s.length = 32 := Vol.length_of_mem_slots g (List.mem_of_getElem? hs)
    refine does_deleteFile_edit g hds name ?_ holds (fun _ => trivial) (fun _ => trivial)
      (fun _ => trivial) ?_
    · intro k' s' hk' hs'
      obtain rfl : k = k' := Search.hit.inj (hk.symm.trans hk')
      obtain rfl : s = s' := Option.some.inj (hs.symm.trans hs')
      exact hclusters
    · intro k' s' v' hdslen hk' hs' hedit
      obtain rfl : k = k' := Search.hit.inj (hk.symm.trans hk')
      obtain rfl : s = s' := Option.some.inj (hs.symm.trans hs')
      exact ⟨olds, k, _, hedit.at_delete g hdir hds hs hhead hattr hold hnone, hdslen, hk,
        (shownAt_delete hs hlen hhead hattr).2⟩
  · refine does_deleteFile_edit g hds name (fun k s hk => absurd ⟨k, hk⟩ hhit)
      (List.forall_mem_nil _) (fun _ => trivial) (fun _ => trivial)
      (fun _ => trivial) fun k s v' _ hk => absurd ⟨k, hk⟩ hhit

end Delete

/-! ### The other files -/

/-- The directory shows nothing. -/
def Empty (p : Fat32Params) (v : Vol p.bytesPerCluster) (d : ℕ) : Prop := ∀ k e, ¬ Lists p v d k e

theorem Empty.hollow {d : ℕ} (h : Empty p v d) : Hollow p v d :=
  fun k e he => absurd he (h k e)

namespace EditAt

variable {v v' : Vol p.bytesPerCluster} {dir first k : ℕ} {ds ext olds news : List ℕ}
  {slots : List Bytes} {upper : Name → Name} {c k' : ℕ} {cs ns : List ℕ} {n : Name} {e : DirEntry83}
  (hcon : Consistent p v) (h : EditAt p v v' dir ds ext olds news first k slots)

include hcon h

/-- **A name is found at its slot as before**, unless the slot has been replaced or the new entry takes
over the name. -/
theorem findSlot_eq
    (hempty : ∀ n e, shownAt (v.slots ds) k = some (n, e) → e.isDir = true → Empty p v e.cluster)
    (hnames : ∀ k' < k, ∀ n e, findSlot upper n (v.slots ds) = some (k', e) →
      named upper n (shownAt slots k) = none)
    (hc : IsDir p v c) (hcs : Chain p v.fat c cs)
    (hfind : findSlot upper n (v.slots cs) = some (k', e)) (hne : (c, k') ≠ (dir, k)) :
    ∃ cs', Chain p v'.fat c cs' ∧ findSlot upper n (v'.slots cs') = some (k', e) ∧
      (cs' = cs ∨ c = dir ∧ cs' = ds ++ ext) := by
  obtain ⟨hnamed, hlast⟩ := findSlot_eq_some_iff.mp hfind
  obtain ⟨o, ho⟩ := hc.owns
  have howner : o ≠ some (dir, k) := by
    rintro rfl
    obtain ⟨e₀, he₀, hdir₀, rfl⟩ := hcon.isDir_of_owns hc ho
    obtain ⟨n₀, hshown₀⟩ := (Fat32.lists_iff h.chain).mp he₀
    obtain ⟨n', hshown, -⟩ := named_eq_some_iff.mp hnamed
    exact hempty n₀ e₀ hshown₀ hdir₀ k' e ((Fat32.lists_iff hcs).mpr ⟨n', hshown⟩)
  obtain rfl | hdir := eq_or_ne c dir
  · obtain rfl := Thread.eq hcs h.chain
    have hk : k' ≠ k := fun heq => hne (by rw [heq])
    refine ⟨cs ++ ext, h.edit.chain, ?_, .inr ⟨rfl, rfl⟩⟩
    rw [h.edit.slots, findSlot_eq_some_iff, h.other k' hk]
    refine ⟨hnamed, fun k'' hk'' => ?_⟩
    by_cases heq : k'' = k
    · -- the new entry does not take over the name
      subst heq
      exact hnames k' hk'' n e hfind
    · rw [h.other k'' heq]
      exact hlast k'' hk''
  · obtain ⟨hcs', hdata⟩ := chain_of_owns hcon h ho howner hdir hcs
    exact ⟨cs, hcs', by rw [Vol.slots_congr hdata, hfind], .inl rfl⟩

/-- **A file at another slot has the same clusters and the same contents.** -/
theorem contents_eq (hc : IsDir p v c) (he : Lists p v c k' e) (hfile : e.isDir = false)
    (hne : (c, k') ≠ (dir, k)) (hns : Clusters p v.fat e.cluster ns) :
    Clusters p v'.fat e.cluster ns ∧ v'.contents ns = v.contents ns := by
  rcases hns.cases with hchain | ⟨hlt, rfl⟩
  · have howns : Owns p v (some (c, k')) e.cluster := .entry hc he hchain.two_le
    have hdir : e.cluster ≠ dir := by
      intro heq
      obtain ⟨e', he', hdir', -⟩ := hcon.isDir_of_owns h.isDir (heq ▸ howns)
      rw [he.eq he', hdir'] at hfile
      cases hfile
    have hslot : some (c, k') ≠ some (dir, k) := fun heq => hne (Option.some.inj heq)
    obtain ⟨hchain', hdata⟩ := chain_of_owns hcon h howns hslot hdir hchain
    exact ⟨.of_chain hchain', Vol.contents_congr hdata⟩
  · exact ⟨.of_lt hlt, rfl⟩

end EditAt

/-! ### Calls on files -/

/-- The calls that change a file. -/
inductive FileOp where
  | write (data : Bytes)
  | delete

def FileOp.prog (upper : Name → Name) (p : Fat32Params) (dir : ℕ) (name : Name) :
    FileOp → DriverM Unit
  | write data => writeFile upper p dir name data
  | delete => deleteFile dir name

/-- An entry for the name in the free slot takes over the name of no other file, uncovers nothing
behind the end of the directory and does not make it too long to be walked. -/
def AddsOnly (upper : Name → Name) (n : ℕ) (name : Name) (slots : List Bytes) : Prop :=
  Sealed slots ∧ (nameTo83 name).1.getD 0 0 ≠ 0x00 ∧
    (freeSlot slots < slots.length ∨ slots.length < n * maxChain) ∧
    ∀ ne, shownAt (putSlot n slots (freeSlot slots) (newSlot name)) (freeSlot slots) = some ne →
      ∀ found, findSlot upper ne.1 slots = some found → freeSlot slots < found.1

instance (upper : Name → Name) (n : ℕ) (name : Name) (slots : List Bytes) :
    Decidable (AddsOnly upper n name slots) := inferInstanceAs (Decidable (_ ∧ _ ∧ _ ∧ _))

/-- The call goes to the slot at which the name is found, and the entry there is not a directory that
shows something. A file with a new name only adds an entry. The slot matters for the files in the same
directory, the rest of the first case for those below the entry. -/
def Isolates (upper : Name → Name) (p : Fat32Params) (v : Vol p.bytesPerCluster) (name : Name)
    (slots : List Bytes) (op : FileOp) : Prop :=
  match findSlot upper name slots with
  | some (j, e) => (∀ k, targetSlot name slots = .hit k → k = j) ∧
      (e.isDir = true → Empty p v e.cluster)
  | none =>
    match op with
    | .write _ => AddsOnly upper p.slotsPerCluster name slots
    | .delete => ∀ k, targetSlot name slots ≠ .hit k

/-- The file, by its directory and its slot, that is found under a name. -/
def Denotes (upper : Name → Name) (p : Fat32Params) (v : Vol p.bytesPerCluster) (c : ℕ) (n : Name)
    (file : ℕ × ℕ) : Prop :=
  ∃ cs e, Chain p v.fat c cs ∧ findSlot upper n (v.slots cs) = some (file.2, e) ∧ file.1 = c

section Names

variable {upper : Name → Name} {name n n' : Name} {slots slots' : List Bytes} {m k k' : ℕ}
  {e : DirEntry83}

theorem findSlot_congr (h : upper n = upper n') (hfind : findSlot upper n slots = some (k, e)) :
    findSlot upper n' slots = some (k, e) := by
  have hnamed : named upper n' = named upper n := by
    funext x
    rw [named, named, h]
  rw [findSlot_eq_some_iff] at hfind ⊢
  rwa [hnamed]

/-- An entry that only has another cluster and another size takes over no name. -/
theorem named_updated {s : Bytes} (hs : slots[k]? = some s) (hlen : s.length = 32)
    (hentry : slotHead s ≠ 0x00 ∧ slotAttr s ≠ attrLfn) (hk' : k' < k)
    (hfind : findSlot upper n slots = some (k', e)) :
    named upper n (shownAt (slots.set k (updateSlot s 0 first size)) k) = none := by
  rw [named_update_eq_none hs hlen hentry.1 hentry.2]
  exact (findSlot_eq_some_iff.mp hfind).2 k hk'

/-- An entry that is only added takes over no name. -/
theorem AddsOnly.named_eq_none (h : AddsOnly upper m name slots) (hk' : k' < freeSlot slots)
    (hfind : findSlot upper n slots = some (k', e)) :
    named upper n (shownAt (putSlot m slots (freeSlot slots)
      (DirEntry83.ofCluster (nameTo83 name) attrArchive first size).toBytes) (freeSlot slots)) =
        none := by
  obtain ⟨-, -, -, htakes⟩ := h
  have hsame := shownAt_putSlot_name m slots (s := newSlot name) (length_toBytes _)
    (length_toBytes (DirEntry83.ofCluster (nameTo83 name) attrArchive first size))
    ((take_ofCluster _ _ _ _).trans (take_ofCluster _ _ _ _).symm)
  rw [named_eq_none_congr hsame, named_eq_none_iff]
  intro N e' hshown hupper
  exact lt_asymm hk' (htakes (N, e') hshown _ (findSlot_congr hupper.symm hfind))

end Names

/-! ### The frame of a call -/

/-- A call has replaced the entry of one slot, which is the one that its name denotes or shows
nothing, and under no other name something else is found. -/
structure Framed (upper : Name → Name) (p : Fat32Params) (v v' : Vol p.bytesPerCluster) (dir : ℕ)
    (ds : List ℕ) (name : Name) (ext olds news : List ℕ) (first k : ℕ) (slots : List Bytes) :
    Prop where
  editAt : EditAt p v v' dir ds ext olds news first k slots
  short : (ds ++ ext).length ≤ maxChain
  denoted : ∀ n e, shownAt (v.slots ds) k = some (n, e) →
    findSlot upper name (v.slots ds) = some (k, e) ∧ (e.isDir = true → Empty p v e.cluster)
  names : ∀ k' < k, ∀ n e, findSlot upper n (v.slots ds) = some (k', e) →
    named upper n (shownAt slots k) = none

section Isolates

variable {v : Vol p.bytesPerCluster} {upper : Name → Name} {name : Name} {slots : List Bytes}
  {op : FileOp} {j k : ℕ} {e : DirEntry83}

theorem Isolates.of_found (h : Isolates upper p v name slots op)
    (hfind : findSlot upper name slots = some (j, e)) :
    (∀ k, targetSlot name slots = .hit k → k = j) ∧ (e.isDir = true → Empty p v e.cluster) := by
  rw [Isolates.eq_def, hfind] at h
  exact h

theorem Isolates.addsOnly (h : Isolates upper p v name slots (.write data))
    (hnone : findSlot upper name slots = none) : AddsOnly upper p.slotsPerCluster name slots := by
  rw [Isolates, hnone] at h
  exact h

theorem Isolates.of_hit (h : Isolates upper p v name slots .delete)
    (htarget : targetSlot name slots = .hit k) : ∃ e, findSlot upper name slots = some (k, e) := by
  rcases hfind : findSlot upper name slots with _ | ⟨j, e⟩
  · rw [Isolates, hfind] at h
    exact absurd htarget (h k)
  · obtain rfl := (h.of_found hfind).1 k htarget
    exact ⟨e, rfl⟩

/-- The entry at the slot of a name is the one that the name denotes. -/
theorem Isolates.denoted (h : Isolates upper p v name slots op)
    (hfind : findSlot upper name slots = some (k, e)) {n : Name} {e' : DirEntry83}
    (hshown : shownAt slots k = some (n, e')) :
    findSlot upper name slots = some (k, e') ∧ (e'.isDir = true → Empty p v e'.cluster) := by
  obtain ⟨n', hshown'⟩ := shownAt_of_findSlot hfind
  obtain rfl := snd_unique hshown hshown'
  exact ⟨hfind, (h.of_found hfind).2⟩

end Isolates

section Calls

variable (g : Geometry p) {v : Vol p.bytesPerCluster} (hcon : Consistent p v) {dir : ℕ} {ds : List ℕ}
  (hdir : IsDir p v dir) (hds : Chain p v.fat dir ds) {upper : Name → Name} {name : Name}

include g hdir hds

theorem Written.framed {ext olds news : List ℕ} {k : ℕ} {slots : List Bytes}
    (h : Written upper p v v' dir ds name data ext olds news first k slots)
    (hcond : Isolates upper p v name (v.slots ds) (.write data)) :
    Framed upper p v v' dir ds name ext olds news first k slots := by
  have hedit : EditAt p v v' dir ds ext olds news first k slots := by
    refine h.editAt g hdir hds (fun j e hfind => ?_) fun hnone => ?_
    · obtain ⟨htarget, hempty⟩ := hcond.of_found hfind
      exact ⟨htarget, fun hdir' => (hempty hdir').hollow⟩
    · obtain ⟨hsealed, hhead, -⟩ := hcond.addsOnly hnone
      exact ⟨hsealed, hhead⟩
  have hshort := h.length_le g fun hnone => (hcond.addsOnly hnone).2.2.1
  rcases writtenSlots_cases h.written with
    ⟨j, e, s, hfind, htarget, hs, hentry, rfl⟩ | ⟨hnone, rfl, rfl⟩
  · obtain rfl := (hcond.of_found hfind).1 k htarget
    have hlen : s.length = 32 := Vol.length_of_mem_slots g (List.mem_of_getElem? hs)
    exact ⟨hedit, hshort, fun n e' hshown => hcond.denoted hfind hshown,
      fun k' hk' n e' hfind' => named_updated hs hlen hentry hk' hfind'⟩
  · exact ⟨hedit, hshort, fun n e hshown => (by cases hshown.symm.trans shownAt_freeSlot),
      fun k' hk' n e hfind => (hcond.addsOnly hnone).named_eq_none hk' hfind⟩

include hcon

/-- **A call changes nothing about the other files.** -/
theorem does_fileOp {op : FileOp} (hcond : Isolates upper p v name (v.slots ds) op) :
    Does p (op.prog upper p dir name) v True fun _ v' => ∃ ext olds news first k slots,
      Framed upper p v v' dir ds name ext olds news first k slots := by
  rcases op with data | _
  · refine (does_writeFile_written g hds (hcon.freesApart hdir hds upper name) data).mono id ?_
    rintro _ v' ⟨ext, olds, news, first, k, slots, h⟩
    exact ⟨ext, olds, news, first, k, slots, h.framed g hdir hds hcond⟩
  refine (does_deleteFile_editAt g hcon hdir hds name ?_).mono id ?_
  · intro k s htarget hs
    obtain ⟨e, hfind⟩ := hcond.of_hit htarget
    obtain ⟨n, hshown⟩ := shownAt_of_findSlot hfind
    exact .inr ⟨n, e, hshown, fun h => ((hcond.of_found hfind).2 h).hollow⟩
  · rintro _ v' ⟨olds, k, slots, hedit, hlen, htarget, hnone⟩
    obtain ⟨e, hfind⟩ := hcond.of_hit htarget
    refine ⟨[], olds, [], 0, k, slots, hedit, by rwa [List.append_nil],
      fun n e' hshown => hcond.denoted hfind hshown, fun k' hk' n e' hfind' => ?_⟩
    rw [hnone]
    rfl

end Calls

/-- **Writing or deleting a file leaves the other files alone**, on every consistent volume, if the
call goes to the slot that its name denotes or only adds an entry. Every other file of the volume is
found as before under its name, and reading it returns the same bytes. -/
theorem other_files_kept (g : Geometry p) (d d' : Disk) (hsize : p.totalSectors ≤ d.size)
    (hcon : Consistent p (view p d)) (dir : ℕ) (ds : List ℕ) (hdir : IsDir p (view p d) dir)
    (hds : Chain p (view p d).fat dir ds) (upper : Name → Name) (name : Name) (op : FileOp)
    (hcond : Isolates upper p (view p d) name ((view p d).slots ds) op)
    (hok : (op.prog upper p dir name).run (onDisk p) d = (.ok (), d')) (c : ℕ) (n : Name)
    (e : DirEntry83) (hc : IsDir p (view p d) c)
    (hfind : ((findEntry upper c n).run (onDisk p) d).1 = .ok (some e))
    (hother : ∀ file, Denotes upper p (view p d) dir name file →
      ¬ Denotes upper p (view p d) c n file) :
    ((findEntry upper c n).run (onDisk p) d').1 = .ok (some e) ∧
      (e.isDir = false → ∀ bytes,
        ((readFile p e.cluster e.fileSize).run (onDisk p) d).1 = .ok bytes →
          ((readFile p e.cluster e.fileSize).run (onDisk p) d').1 = .ok bytes) := by
  obtain ⟨hsize', ext, olds, news, first, k, slots, h⟩ :=
    (does_fileOp g hcon hdir hds hcond).of_ok g hsize hok
  obtain ⟨cs, hcs⟩ := hcon.chain_of_isDir hc
  obtain ⟨hlen, hfound⟩ := (findEntry_ok_iff g hsize hcs).mp hfind
  obtain ⟨⟨k', e'⟩, hslot, rfl⟩ := Option.map_eq_some_iff.mp hfound.symm
  have hne : (c, k') ≠ (dir, k) := by
    rintro ⟨⟩
    obtain rfl := Thread.eq hcs hds
    obtain ⟨n', hshown⟩ := shownAt_of_findSlot hslot
    exact hother (dir, k) ⟨cs, e', hcs, (h.denoted n' e' hshown).1, rfl⟩ ⟨cs, e', hcs, hslot, rfl⟩
  obtain ⟨cs', hcs', hslot', hcases⟩ := h.editAt.findSlot_eq hcon
    (fun n e hshown => (h.denoted n e hshown).2) h.names hc hcs hslot hne
  have hlen' : cs'.length ≤ maxChain := by
    rcases hcases with rfl | ⟨-, rfl⟩
    · exact hlen
    · exact h.short
  refine ⟨(findEntry_ok_iff g hsize' hcs').mpr ⟨hlen', by rw [hslot']; rfl⟩, fun hfile bytes hread => ?_⟩
  have hlists := Lists.of_findSlot hcs hslot
  obtain ⟨ns, hns⟩ := hcon.clusters_of_lists hc hlists
  obtain ⟨hns', hcontents⟩ := h.editAt.contents_eq hcon hc hlists hfile hne hns
  rw [readFile_ok_iff g hsize hns] at hread
  rwa [readFile_ok_iff g hsize' hns', hcontents]

/-- The entry of an empty file. -/
def emptyFile (name : Name) : DirEntry83 := .ofCluster (nameTo83 name) attrArchive 0 0

/-- The entry of the file `a` with one byte, in cluster 3. -/
def byteFile : DirEntry83 := .ofCluster (nameTo83 "a".toList) attrArchive 3 1

/-- The table of the disk below. -/
def byteTable : List UInt8 :=
  wu32 (wu32 (wu32 (List.replicate 512 0) 8 endMark) 12 endMark) 16 fat32Bad

theorem length_byteTable : byteTable.length = 512 := by
  rw [byteTable, length_wu32, length_wu32, length_wu32, List.length_replicate]

/-- A disk with the small volume, on which the root directory has this file and cluster 4 is marked as
bad. -/
def byteDisk : Disk where
  sectors i :=
    if i = 1 then ⟨byteTable, length_byteTable⟩
    else if i = 2 then ⟨resize byteFile.toBytes 512, length_resize _ _⟩
    else if i = 3 then ⟨resize [0x41] 512, length_resize _ _⟩
    else (smallDisk []).sectors i
  size := 8

theorem byteDisk_chain : Chain smallParams (view smallParams byteDisk).fat 2 [2] :=
  .last (by decide) (by decide +kernel)

theorem byteDisk_consistent : Consistent smallParams (view smallParams byteDisk) := by
  have hshown : ∀ k < 16, shownAt ((view smallParams byteDisk).slots [2]) k =
      if k = 0 then some ("A".toList, byteFile) else none := by
    decide +kernel
  have hcs : Chain smallParams (view smallParams byteDisk).fat byteFile.cluster [3] :=
    .last (by decide) (by decide +kernel)
  refine consistent_of_file byteDisk_chain 0 byteFile (fun k n e hat => .inr ?_)
    (by decide) hcs (List.disjoint_left.mpr (by decide))
  rcases lt_or_ge k 16 with hlt | hge
  · rw [hshown k hlt] at hat
    split_ifs at hat with hzero
    exact ⟨hzero, (Prod.mk.inj (Option.some.inj hat)).2.symm⟩
  · have hlen : ((view smallParams byteDisk).slots [2]).length = 16 :=
      Vol.length_slots smallParams_geometry
    rw [shownAt, shownFrom_of_le (hlen ▸ hge)] at hat
    cases hat

/-- A new file beside another one, on a volume with a bad cluster. The other file keeps its byte. -/
theorem other_files_kept_new :
    ((findEntry asciiUpper 2 "a".toList).run (onDisk smallParams)
        ((writeFile asciiUpper smallParams 2 "b".toList [0x42]).run (onDisk smallParams)
          byteDisk).2).1 = .ok (some byteFile) ∧
      ((readFile smallParams 3 1).run (onDisk smallParams)
        ((writeFile asciiUpper smallParams 2 "b".toList [0x42]).run (onDisk smallParams)
          byteDisk).2).1 = .ok [0x41] := by
  have hok : ((writeFile asciiUpper smallParams 2 "b".toList [0x42]).run (onDisk smallParams)
      byteDisk).1 = .ok () := by
    decide +kernel
  have hfind : ((findEntry asciiUpper 2 "a".toList).run (onDisk smallParams) byteDisk).1 =
      .ok (some byteFile) := by
    decide +kernel
  have hread : ((readFile smallParams byteFile.cluster byteFile.fileSize).run (onDisk smallParams)
      byteDisk).1 = .ok [0x41] := by
    decide +kernel
  have hnone : findSlot asciiUpper "b".toList ((view smallParams byteDisk).slots [2]) = none := by
    decide +kernel
  have hadds : AddsOnly asciiUpper smallParams.slotsPerCluster "b".toList
      ((view smallParams byteDisk).slots [2]) := by
    decide +kernel
  have hsize : smallParams.totalSectors ≤ byteDisk.size := by decide
  have hcon := byteDisk_consistent
  have hchain := byteDisk_chain
  generalize byteDisk = d at *
  generalize hd' : ((writeFile asciiUpper smallParams 2 "b".toList [0x42]).run
    (onDisk smallParams) d).2 = d'
  have hcond : Isolates asciiUpper smallParams (view smallParams d) "b".toList
      ((view smallParams d).slots [2]) (.write [0x42]) := by
    rw [Isolates, hnone]
    exact hadds
  obtain ⟨hfound, hkept⟩ := other_files_kept smallParams_geometry d d' hsize hcon 2 [2] .root hchain
    asciiUpper "b".toList (.write [0x42]) hcond (Prod.ext hok hd') 2 "a".toList byteFile .root hfind
    fun file hfile => (by
      obtain ⟨cs, e, hcs, hslot, -⟩ := hfile
      rw [Thread.eq hcs hchain, hnone] at hslot
      cases hslot)
  exact ⟨hfound, hkept (by decide) [0x41] hread⟩

/-- **A deletion can remove another file.** On a volume whose only file is `filename.txt`, deleting
`filename1.txt` succeeds although no such file is found, and `filename.txt` is gone. -/
theorem other_file_lost :
    Geometry smallParams ∧
      smallParams.totalSectors ≤ (smallDisk (emptyFile "filename.txt".toList).toBytes).size ∧
      WellFormed smallParams (view smallParams (smallDisk (emptyFile "filename.txt".toList).toBytes)) ∧
      IsDir smallParams (view smallParams (smallDisk (emptyFile "filename.txt".toList).toBytes)) 2 ∧
      ((findEntry asciiUpper 2 "filename1.txt".toList).run (onDisk smallParams)
        (smallDisk (emptyFile "filename.txt".toList).toBytes)).1 = .ok none ∧
      ((findEntry asciiUpper 2 "filename.txt".toList).run (onDisk smallParams)
        (smallDisk (emptyFile "filename.txt".toList).toBytes)).1 =
          .ok (some (emptyFile "filename.txt".toList)) ∧
      ((deleteFile 2 "filename1.txt".toList).run (onDisk smallParams)
        (smallDisk (emptyFile "filename.txt".toList).toBytes)).1 = .ok () ∧
      ((findEntry asciiUpper 2 "filename.txt".toList).run (onDisk smallParams)
        ((deleteFile 2 "filename1.txt".toList).run (onDisk smallParams)
          (smallDisk (emptyFile "filename.txt".toList).toBytes)).2).1 = .ok none := by
  have hhollow : ∀ ne ∈ scan []
      ((view smallParams (smallDisk (emptyFile "filename.txt".toList).toBytes)).slots [2]),
        ne.2.cluster < 2 := by
    decide +kernel
  exact ⟨smallParams_geometry, by decide, smallDisk_wellFormed hhollow, .root, by decide +kernel,
    by decide +kernel, by decide +kernel, by decide +kernel⟩

end Maios.Fat32
