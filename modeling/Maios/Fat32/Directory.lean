import Maios.Fat32.Allocation
import Maios.Fat32.SlotBytes
import Maios.Fat32.Slots

/-!
# Directories on a volume

The slots of a directory are those of its clusters, one cluster after the other. Here is what the
driver's functions on directories do to them: `find_entry` finds the entry at the slot that `findSlot`
says, a new entry goes to the free slot or to a new cluster, and an update or a deletion changes the
first slot with the eleven bytes of the name.
-/

namespace Maios

variable {name : Name} {bpc : ℕ}

namespace Fat32

open List

/-- The number of slots in a cluster. -/
def Fat32Params.slotsPerCluster (p : Fat32Params) : ℕ := p.bytesPerCluster / 32

theorem Geometry.bytesPerCluster_eq {p : Fat32Params} (g : Geometry p) :
    p.bytesPerCluster = 32 * p.slotsPerCluster := by
  have h := g.bytesPerCluster
  rw [Fat32Params.slotsPerCluster]
  omega

theorem Geometry.le_bytesPerCluster {p : Fat32Params} (g : Geometry p) : 512 ≤ p.bytesPerCluster :=
  g.bytesPerCluster ▸ Nat.le_mul_of_pos_right 512 g.sectorsPerCluster

theorem Geometry.slotsPerCluster_pos {p : Fat32Params} (g : Geometry p) : 0 < p.slotsPerCluster := by
  have h := g.le_bytesPerCluster
  rw [Fat32Params.slotsPerCluster]
  omega

/-- The slots of the clusters of a directory. -/
def Vol.slots {bpc : ℕ} (v : Vol bpc) (cs : List ℕ) : List Bytes :=
  cs.flatMap fun c => slotsExact (v.data c).1

theorem Vol.slots_cons (v : Vol bpc) (c : ℕ) (cs : List ℕ) :
    v.slots (c :: cs) = slotsExact (v.data c).1 ++ v.slots cs := flatMap_cons

theorem Vol.slots_append (v : Vol bpc) (cs cs' : List ℕ) :
    v.slots (cs ++ cs') = v.slots cs ++ v.slots cs' := flatMap_append

theorem Vol.slots_congr {v v' : Vol bpc} {cs : List ℕ} (h : ∀ c ∈ cs, v'.data c = v.data c) :
    v'.slots cs = v.slots cs :=
  flatMap_congr fun c hc => by rw [h c hc]

section Slots

variable {p : Fat32Params} (g : Geometry p) {v : Vol p.bytesPerCluster} {cs : List ℕ} {s : Bytes}

include g

theorem Geometry.length_data (v : Vol p.bytesPerCluster) (c : ℕ) :
    (v.data c).1.length = 32 * p.slotsPerCluster := (v.data c).2.trans g.bytesPerCluster_eq

theorem Vol.length_slots : (v.slots cs).length = p.slotsPerCluster * cs.length := by
  induction cs with
  | nil => rfl
  | cons c cs ih =>
    rw [v.slots_cons, length_append, ih, length_cons, Nat.mul_succ, add_comm,
      length_slotsExact (g.length_data v c)]

theorem Vol.length_of_mem_slots (hs : s ∈ v.slots cs) : s.length = 32 := by
  obtain ⟨c, -, hc⟩ := mem_flatMap.mp hs
  exact length_of_mem_slotsExact (g.length_data v c) hc

end Slots

/-! ### Listing -/

theorem scan_append (lfn : LfnCollector) (a b : List Bytes) :
    scan lfn (a ++ b) =
      match scanEnd lfn a with
      | none => scan lfn a
      | some lfn' => scan lfn a ++ scan lfn' b := by
  induction a generalizing lfn with
  | nil => rfl
  | cons s a ih =>
    rw [cons_append, scan, scan, scanEnd]
    rcases afterSlot lfn s with _ | lfn'
    · rfl
    · simp only [ih lfn']
      rcases scanEnd lfn' a with _ | lfn''
      · rfl
      · exact (append_assoc _ _ _).symm

section Find

variable {p : Fat32Params} {v : Vol p.bytesPerCluster} {S : Vol p.bytesPerCluster → Prop} {dir : ℕ}
  {ds : List ℕ} {upper : Name → Name}

theorem leaves_iterClusters {Q : List (Name × DirEntry83) → Vol p.bytesPerCluster → Prop}
    {lfn : LfnCollector} (hds : ∀ c ∈ ds, p.Valid c) (hQ : Q (scan lfn (v.slots ds)) v) :
    Leaves p (iterClusters ds lfn) v S Q := by
  induction ds generalizing lfn Q with
  | nil => exact hQ
  | cons c ds ih =>
    rw [v.slots_cons, scan_append] at hQ
    rw [iterClusters, leaves_bind]
    refine leaves_readCluster (hds c mem_cons_self) ?_
    rcases hend : scanEnd lfn (slotsExact (v.data c).1) with _ | lfn' <;> rw [hend] at hQ
    · exact hQ
    · simp only [leaves_bind]
      exact ih (forall_mem_cons.mp hds).2 hQ

/-- **A name is found at its slot.** -/
theorem leaves_findEntry (g : Geometry p) {Q : Option DirEntry83 → Vol p.bytesPerCluster → Prop}
    (h : Clusters p v.fat dir ds) (hR : maxChain < ds.length → S v)
    (hQ : ds.length ≤ maxChain →
      Q ((findSlot upper name (v.slots ds)).map fun found => found.2) v) :
    Leaves p (findEntry upper dir name) v S Q := by
  rw [findEntry, leaves_bind, iterDir, leaves_bind]
  refine leaves_clusterChain g h hR fun hlen => ?_
  refine leaves_iterClusters (fun c hc => h.valid hc) ?_
  rw [lastNamed_scan]
  exact hQ hlen

theorem findEntry_ok_iff (g : Geometry p) {d : Disk} (hsize : p.totalSectors ≤ d.size)
    {found : Option DirEntry83} (h : Chain p (view p d).fat dir ds) :
    ((findEntry upper dir name).run (onDisk p) d).1 = .ok found ↔ ds.length ≤ maxChain ∧
      found = (findSlot upper name ((view p d).slots ds)).map fun found => found.2 :=
  Does.ok_iff g hsize
    (leaves_findEntry g (.of_chain h) not_le.mpr fun hlen => ⟨hlen, rfl⟩)

end Find

/-! ### Searching -/

/-- The slot `k` of a directory is the slot `i` of its cluster `c`, with these bytes. -/
structure SlotAt (p : Fat32Params) (v : Vol p.bytesPerCluster) (cs : List ℕ) (c i k : ℕ)
    (s : Bytes) : Prop where
  split : ∃ pre post, cs = pre ++ c :: post ∧ k = p.slotsPerCluster * pre.length + i
  lt : i < p.slotsPerCluster
  slot : (slotsExact (v.data c).1)[i]? = some s

theorem modify_of_getElem? {α : Type*} {l : List α} {i : ℕ} {a : α} (h : l[i]? = some a)
    (f : α → α) : l.modify i f = l.set i (f a) := by
  rw [modify_eq_set_getElem?, h]
  rfl

namespace SlotAt

variable {p : Fat32Params} {v : Vol p.bytesPerCluster} {cs : List ℕ} {c i k : ℕ} {s : Bytes}

theorem mem (h : SlotAt p v cs c i k s) : c ∈ cs := by
  obtain ⟨pre, post, rfl, -⟩ := h.split
  exact mem_append_right _ mem_cons_self

theorem cons (h : SlotAt p v cs c i k s) (c' : ℕ) :
    SlotAt p v (c' :: cs) c i (p.slotsPerCluster + k) s := by
  obtain ⟨pre, post, rfl, rfl⟩ := h.split
  refine ⟨⟨c' :: pre, post, rfl, ?_⟩, h.lt, h.slot⟩
  rw [length_cons, Nat.mul_succ]
  omega

theorem getElem? (g : Geometry p) (h : SlotAt p v cs c i k s) : (v.slots cs)[k]? = some s := by
  obtain ⟨pre, post, rfl, rfl⟩ := h.split
  have hi : i < (slotsExact (v.data c).1).length := (List.getElem?_eq_some_iff.mp h.slot).1
  rw [v.slots_append, v.slots_cons, ← Vol.length_slots g, getElem?_append_right (Nat.le_add_right _ _),
    Nat.add_sub_cancel_left, getElem?_append_left hi]
  exact h.slot

/-- A change of the slot in its cluster is a change of the slot in the directory. -/
theorem slots_setData (g : Geometry p) (h : SlotAt p v cs c i k s) (hnodup : cs.Nodup)
    {b : Storage.Block p.bytesPerCluster} {f : Bytes → Bytes}
    (hb : slotsExact b.1 = (slotsExact (v.data c).1).modify i f) :
    (v.setData c b).slots cs = (v.slots cs).set k (f s) := by
  obtain ⟨pre, post, rfl, rfl⟩ := h.split
  have hi : i < (slotsExact (v.data c).1).length := (List.getElem?_eq_some_iff.mp h.slot).1
  rw [nodup_append, nodup_cons] at hnodup
  obtain ⟨-, ⟨hpost, -⟩, hpre⟩ := hnodup
  have hother : ∀ l : List ℕ, c ∉ l → (v.setData c b).slots l = v.slots l := by
    intro l hl
    exact Vol.slots_congr fun c' hc' => v.setData_data_of_ne (ne_of_mem_of_not_mem hc' hl) b
  rw [Vol.slots_append, Vol.slots_cons, hother pre fun hc => hpre c hc c mem_cons_self rfl,
    hother post hpost, v.setData_data_self, hb, modify_of_getElem? h.slot, v.slots_append,
    v.slots_cons, ← Vol.length_slots g, set_append_right _ _ (Nat.le_add_right _ _),
    Nat.add_sub_cancel_left, set_append_left _ _ hi]

end SlotAt

/-- The result of a search behind `m` slots at which it goes on. -/
def Search.shift (m : ℕ) : Search → Search
  | hit i => hit (m + i)
  | r => r

open Search

theorem firstHit_append (visit : Bytes → Visit) (a b : List Bytes) :
    firstHit visit (a ++ b) =
      match firstHit visit a with
      | .absent => (firstHit visit b).shift a.length
      | r => r := by
  induction a with
  | nil =>
    rw [nil_append, firstHit]
    cases firstHit visit b with
    | hit i => rw [shift, length_nil, zero_add]
    | _ => rfl
  | cons s a ih =>
    rw [cons_append, firstHit, firstHit]
    cases visit s with
    | next => ?_
    | _ => rfl
    simp only [ih]
    cases firstHit visit a with
    | absent => ?_
    | _ => rfl
    cases firstHit visit b with
    | hit i =>
      simp only [shift, succ, length_cons, hit.injEq]
      omega
    | _ => rfl

variable {slots : List Bytes}

/-- A search hits a slot that its visit accepts. -/
theorem firstHit_eq_hit {visit : Bytes → Visit} {k : ℕ} (h : firstHit visit slots = .hit k) :
    ∃ s, slots[k]? = some s ∧ visit s = .hit := by
  induction slots generalizing k with
  | nil => cases h
  | cons s rest ih =>
    rw [firstHit] at h
    cases hs : visit s <;> rw [hs] at h
    case next =>
      cases hrest : firstHit visit rest <;> rw [hrest] at h <;> cases h
      exact ih hrest
    all_goals cases h
    exact ⟨s, rfl, hs⟩

theorem firstHit_ne_crash {visit : Bytes → Visit} (h : ∀ s ∈ slots, visit s ≠ .crash) :
    firstHit visit slots ≠ .crash := by
  induction slots with
  | nil => exact fun hcrash => (by cases hcrash)
  | cons s rest ih =>
    rw [firstHit]
    cases hs : visit s with
    | next => cases hfirst : firstHit visit rest <;> simp_all [succ]
    | crash => exact absurd hs (h s mem_cons_self)
    | _ => simp

/-- The search for a free slot. -/
theorem firstHit_visitFree (slots : List Bytes) :
    firstHit visitFree slots =
      if freeSlot slots < slots.length then .hit (freeSlot slots) else .absent := by
  induction slots with
  | nil => rfl
  | cons s rest ih =>
    rw [firstHit, visitFree, freeSlot, findIdx_cons, ← freeSlot]
    by_cases hs : slotHead s = 0x00 ∨ slotHead s = 0xE5
    · simp [hs]
    · simp only [hs, if_false, ih, decide_false, cond_false, length_cons, Nat.add_lt_add_iff_right]
      split_ifs <;> rfl

/-- The slot that an update or a deletion of a name goes to. -/
def targetSlot (name : Name) (slots : List Bytes) : Search :=
  firstHit (visitNamed (nameTo83 name).1) slots

section Visit

variable {target s : Bytes}

theorem visitNamed_ne_crash (hs : s.length = 32) : visitNamed target s ≠ .crash := by
  have hlen : ¬ s.length < 12 := by omega
  rw [visitNamed]
  split_ifs <;> simp

theorem visitNamed_eq_hit (h : visitNamed target s = .hit) :
    slotHead s ≠ 0x00 ∧ slotAttr s ≠ attrLfn := by
  rw [visitNamed] at h
  split_ifs at h with h0 _ _ hlfn
  exact ⟨h0, hlfn⟩

end Visit

/-- The slot of an update or deletion is an entry. -/
theorem targetSlot_eq_hit {k : ℕ} (h : targetSlot name slots = .hit k) :
    ∃ s, slots[k]? = some s ∧ slotHead s ≠ 0x00 ∧ slotAttr s ≠ attrLfn := by
  obtain ⟨s, hs, hhit⟩ := firstHit_eq_hit h
  exact ⟨s, hs, visitNamed_eq_hit hhit⟩

section Search

variable {p : Fat32Params} (g : Geometry p) {v : Vol p.bytesPerCluster}
  {S : Vol p.bytesPerCluster → Prop} {cs : List ℕ}
  {visit : Bytes → Visit}

include g

/-- The search of a directory is the search of its slots. -/
theorem leaves_searchChain {Q : Found → Vol p.bytesPerCluster → Prop} (hcs : ∀ c ∈ cs, p.Valid c)
    (hvisit : ∀ s : Bytes, s.length = 32 → visit s ≠ .crash)
    (habsent : firstHit visit (v.slots cs) = .absent → Q .absent v)
    (hstop : firstHit visit (v.slots cs) = .stop → Q .stop v)
    (hhit : ∀ c i k s, SlotAt p v cs c i k s → firstHit visit (v.slots cs) = .hit k →
      Q (.hit c i (v.data c).1) v) : Leaves p (searchChain visit cs) v S Q := by
  induction cs generalizing Q with
  | nil => exact habsent rfl
  | cons c cs ih =>
    have hlen := g.length_data v c
    rw [v.slots_cons, firstHit_append, length_slotsExact hlen] at habsent hstop hhit
    rw [searchChain, leaves_bind]
    refine leaves_readCluster (hcs c mem_cons_self) ?_
    rw [slotsStepped_eq hlen]
    rcases hfirst : firstHit visit (slotsExact (v.data c).1) with _ | i | _ | _
    · rw [hfirst] at habsent hstop hhit
      refine ih (forall_mem_cons.mp hcs).2 (fun h => ?_) (fun h => ?_) ?_
      · exact habsent (congrArg (shift _) h)
      · exact hstop (congrArg (shift _) h)
      · exact fun c' i k s hat h => hhit c' i _ s (hat.cons c) (congrArg (shift _) h)
    · rw [hfirst] at hhit
      obtain ⟨s, hs, -⟩ := firstHit_eq_hit hfirst
      have hi : i < p.slotsPerCluster := by
        rw [← length_slotsExact hlen]
        exact (List.getElem?_eq_some_iff.mp hs).1
      have hfits : 32 * i + 32 ≤ (v.data c).1.length := by omega
      simp only [if_pos hfits, leaves_pure]
      refine hhit c i i s ⟨⟨[], cs, rfl, ?_⟩, hi, hs⟩ rfl
      rw [length_nil, mul_zero, zero_add]
    · rw [hfirst] at hstop
      exact hstop rfl
    · exact absurd hfirst (firstHit_ne_crash fun s hs => hvisit s (length_of_mem_slotsExact hlen hs))

end Search

/-! ### Changing a directory -/

/-- The volume `v'` is `v` with other slots in the directory `dir`, whose clusters `ds` may be extended
by free clusters. -/
structure DirChanged (p : Fat32Params) (v v' : Vol p.bytesPerCluster) (dir : ℕ) (ds ext : List ℕ)
    (slots : List Bytes) : Prop where
  chain : Chain p v'.fat dir (ds ++ ext)
  slots : v'.slots (ds ++ ext) = slots
  free : ∀ c ∈ ext, v.fat c = fat32Free
  fat : ∀ c ∉ ds ++ ext, v'.fat c = v.fat c
  data : ∀ c ∉ ds ++ ext, v'.data c = v.data c

section Changes

variable {p : Fat32Params} (g : Geometry p) {v : Vol p.bytesPerCluster} {R : Prop}
  {S : Vol p.bytesPerCluster → Prop} {dir : ℕ}
  {ds : List ℕ} {Q : Unit → Vol p.bytesPerCluster → Prop}

include g

variable (h : Chain p v.fat dir ds)

include h

/-- A cluster of a directory written with one slot changed. -/
theorem leaves_writeSlot {c i k : ℕ} {s buf : Bytes} {f : Bytes → Bytes}
    (hat : SlotAt p v ds c i k s) (hbuf : buf.length = p.bytesPerCluster)
    (hslots : slotsExact buf = (slotsExact (v.data c).1).modify i f)
    (hQ : ∀ v', v'.fat = v.fat → DirChanged p v v' dir ds [] ((v.slots ds).set k (f s)) → Q () v') :
    Leaves p (writeCluster c buf) v S Q := by
  refine leaves_writeCluster (h.ok_of_mem hat.mem) hbuf (hQ _ rfl ?_)
  refine ⟨?_, ?_, forall_mem_nil _, fun _ _ => rfl, fun c' hc' => ?_⟩
  · rw [append_nil]
    exact h
  · rw [append_nil]
    exact hat.slots_setData g h.nodup hslots
  · rw [append_nil] at hc'
    exact v.setData_data_of_ne (ne_of_mem_of_not_mem hat.mem hc').symm _

omit h in
/-- The slots of a cluster with one entry at its start. -/
theorem slotsExact_firstSlot {s : Bytes} (hs : s.length = 32) :
    slotsExact (s ++ replicate (p.bytesPerCluster - 32) 0) =
      s :: replicate (p.slotsPerCluster - 1) (replicate 32 0) := by
  have hzeros : p.bytesPerCluster - 32 = 32 * (p.slotsPerCluster - 1) := by
    have := g.bytesPerCluster_eq
    omega
  rw [hzeros, slotsExact_append hs length_replicate, slotsExact_zeros]

omit h in
/-- A directory without a free slot that gets one more cluster, with the entry at its start. -/
theorem DirChanged.of_extended {v₁ : Vol p.bytesPerCluster} {c : ℕ} {s : Bytes} (hs : s.length = 32)
    (hbuf : (s ++ replicate (p.bytesPerCluster - 32) 0).length = p.bytesPerCluster)
    (hfull : freeSlot (v.slots ds) = (v.slots ds).length) (hc : v.fat c = fat32Free) (hnot : c ∉ ds)
    (hdata : v₁.data = v.data) (hfat : ∀ c' ∉ c :: ds, v₁.fat c' = v.fat c')
    (hchain : Chain p v₁.fat dir (ds ++ [c])) :
    DirChanged p v (v₁.setData c ⟨_, hbuf⟩) dir ds [c]
      (putSlot p.slotsPerCluster (v.slots ds) (freeSlot (v.slots ds)) s) := by
  refine ⟨hchain, ?_, ?_, ?_, ?_⟩
  · have hold : (v₁.setData c ⟨_, hbuf⟩).slots ds = v.slots ds := by
      refine Vol.slots_congr fun c' hc' => ?_
      rw [v₁.setData_data_of_ne (ne_of_mem_of_not_mem hc' hnot), hdata]
    rw [Vol.slots_append, hold, putSlot, if_neg (by omega), Vol.slots_cons, v₁.setData_data_self,
      slotsExact_firstSlot g hs]
    simp [Vol.slots]
  · intro c' hc'
    rw [mem_singleton.mp hc']
    exact hc
  · intro c' hc'
    refine hfat c' fun hmem => hc' ?_
    rw [mem_append, mem_singleton]
    exact (mem_cons.mp hmem).symm
  · intro c' hc'
    have hne : c' ≠ c := fun heq => hc' (mem_append_right _ (mem_singleton.mpr heq))
    rw [v₁.setData_data_of_ne hne, hdata]

/-- The entry goes to a new cluster, if there is one. -/
theorem leaves_extendDir {s : Bytes} {last : ℕ} (hs : s.length = 32)
    (hlast : ds.getLast? = some last) (hfull : freeSlot (v.slots ds) = (v.slots ds).length)
    (hspace : v.freeCount p = 0 → S v)
    (hQ : ∀ c v', DirChanged p v v' dir ds [c]
        (putSlot p.slotsPerCluster (v.slots ds) (freeSlot (v.slots ds)) s) → Q () v') :
    Leaves p (extendChain p last 1) v S fun cs v₁ => ∃ c, cs = [c] ∧
      Leaves p (writeCluster c (s ++ replicate (p.bytesPerCluster - 32) 0)) v₁ S Q := by
  refine leaves_extendChain g h hlast hspace fun c v₁ hc hnot hdata hfat hchain => ⟨c, rfl, ?_⟩
  have hbuf : (s ++ replicate (p.bytesPerCluster - 32) 0).length = p.bytesPerCluster := by
    have := g.le_bytesPerCluster
    rw [length_append, hs, length_replicate]
    omega
  have hcvalid : p.Valid c := hchain.ok_of_mem (mem_append_right _ mem_cons_self)
  exact leaves_writeCluster hcvalid hbuf
    (hQ c _ (.of_extended g hs hbuf hfull hc hnot hdata hfat hchain))

/-- **A new entry is put at the free slot.** It fails if there is neither a free slot nor a free
cluster. -/
theorem leaves_createDirEntry (name : Name) (attr : UInt8) (first size : ℕ)
    (hlong : maxChain < ds.length → S v)
    (hfull : freeSlot (v.slots ds) = (v.slots ds).length → v.freeCount p = 0 → S v)
    (hQ : ∀ ext v', DirChanged p v v' dir ds ext
        (putSlot p.slotsPerCluster (v.slots ds) (freeSlot (v.slots ds))
          (DirEntry83.ofCluster (nameTo83 name) attr first size).toBytes) → Q () v') :
    Leaves p (createDirEntry p dir name attr first size) v S Q := by
  set s := (DirEntry83.ofCluster (nameTo83 name) attr first size).toBytes with hsdef
  have hs : s.length = 32 := length_toBytes _
  have hvisit : ∀ s : Bytes, s.length = 32 → visitFree s ≠ .crash := by
    intro s _
    rw [visitFree]
    split_ifs <;> simp
  rw [createDirEntry, leaves_bind]
  refine leaves_clusterChain g (.of_chain h) hlong fun _ => ?_
  rw [leaves_bind]
  have hfree := firstHit_visitFree (v.slots ds)
  refine leaves_searchChain g (fun c hc => h.ok_of_mem hc) hvisit (fun habsent => ?_)
    (fun hstop => ?_) ?_
  · -- all slots are taken
    have hlen : freeSlot (v.slots ds) = (v.slots ds).length := by
      refine freeSlot_eq_length fun hlt => ?_
      rw [if_pos hlt, habsent] at hfree
      cases hfree
    obtain ⟨last, hlast⟩ : ∃ last, ds.getLast? = some last := by
      obtain ⟨ds', rfl⟩ := h.head
      exact ⟨_, getLast?_cons⟩
    have hbpc : ¬ p.bytesPerCluster < 32 := by
      have := g.le_bytesPerCluster
      omega
    simp only [hlast]
    rw [leaves_bind]
    refine Act.wp.mono (leaves_extendDir g h hs hlast hlen (hfull hlen) fun c => hQ [c]) ?_
      fun _ _ => id
    rintro _ v₁ ⟨c, rfl, hwrite⟩
    simp only [if_neg hbpc, ← hsdef]
    exact hwrite
  · rw [hstop] at hfree
    split_ifs at hfree
  · intro c i k t hat hhit
    obtain ⟨hlt, rfl⟩ : freeSlot (v.slots ds) < (v.slots ds).length ∧ freeSlot (v.slots ds) = k := by
      rw [hhit] at hfree
      split_ifs at hfree with hlt
      exact ⟨hlt, (hit.inj hfree).symm⟩
    have hlen := g.length_data v c
    refine leaves_writeSlot g h hat ?_ (slotsExact_splice hlen hat.lt hs) fun v' _ hchanged => ?_
    · have := hat.lt
      rw [length_append, length_append, length_take, length_drop, hs, hlen, g.bytesPerCluster_eq]
      omega
    · refine hQ [] v' ?_
      rw [putSlot, if_pos hlt]
      exact hchanged

/-- The search for the slot of a name. -/
theorem leaves_searchNamed {Q : Found → Vol p.bytesPerCluster → Prop} (name : Name)
    (habsent : (∀ k, targetSlot name (v.slots ds) ≠ .hit k) → Q .absent v ∧ Q .stop v)
    (hhit : ∀ c i k s, SlotAt p v ds c i k s → targetSlot name (v.slots ds) = .hit k →
      Q (.hit c i (v.data c).1) v) :
    Leaves p (searchChain (visitNamed (nameTo83 name).1) ds) v S Q := by
  refine leaves_searchChain g (fun c hc => h.ok_of_mem hc) (fun s hs => visitNamed_ne_crash hs)
    (fun hnone => ?_) (fun hstop => ?_) hhit
  · exact (habsent fun k hk => (by cases hnone.symm.trans hk)).1
  · exact (habsent fun k hk => (by cases hstop.symm.trans hk)).2

/-- **An update writes the first cluster and the size into the slot of the name.** -/
theorem leaves_updateDirEntry (name : Name) (first size : ℕ) (hlong : maxChain < ds.length → S v)
    (habsent : (∀ k, targetSlot name (v.slots ds) ≠ .hit k) → S v)
    (hQ : ∀ k s v', targetSlot name (v.slots ds) = .hit k → (v.slots ds)[k]? = some s →
      v'.fat = v.fat →
      DirChanged p v v' dir ds [] ((v.slots ds).set k (updateSlot s 0 first size)) → Q () v') :
    Leaves p (updateDirEntry dir name first size) v S Q := by
  rw [updateDirEntry, leaves_bind]
  refine leaves_clusterChain g (.of_chain h) hlong fun _ => ?_
  rw [leaves_bind]
  refine leaves_searchNamed g h name (fun hmiss => ⟨habsent hmiss, habsent hmiss⟩) ?_
  intro c i k s hat hhit
  have hlen := g.length_data v c
  refine leaves_writeSlot g h hat ?_ (slotsExact_updateSlot hlen hat.lt first size) fun v' hfat hch => ?_
  · rw [length_updateSlot]
    exact (v.data c).2
  · exact hQ k s v' hhit (hat.getElem? g) hfat hch

/-- **A deletion marks the slot of the name and frees the clusters that the slot names.** -/
theorem does_deleteFile (name : Name) {olds : List ℕ}
    (hold : ∀ k s, targetSlot name (v.slots ds) = .hit k → (v.slots ds)[k]? = some s →
      Clusters p v.fat (slotCluster s) olds)
    (hlong : maxChain < ds.length → R) (hlong' : maxChain < olds.length → R)
    (habsent : (∀ k, targetSlot name (v.slots ds) ≠ .hit k) → R)
    (hQ : ∀ k s v', ds.length ≤ maxChain → targetSlot name (v.slots ds) = .hit k →
      (v.slots ds)[k]? = some s → DirChanged p v v' dir ds [] ((v.slots ds).set k (s.set 0 0xE5)) →
      Q () (v'.freeAll olds)) : Does p (deleteFile dir name) v R Q := by
  rw [deleteFile, does_bind]
  refine leaves_clusterChain g (.of_chain h) hlong fun hdslen => ?_
  rw [does_bind]
  refine leaves_searchNamed g h name (fun hmiss => ⟨habsent hmiss, habsent hmiss⟩) ?_
  intro c i k s hat hhit
  have hlen := g.length_data v c
  have hslots := slotsExact_set hlen hat.lt (j := 0) (by decide) 0xE5
  simp only [slotCluster_slot hlen hat.lt hat.slot]
  rw [does_bind]
  refine leaves_writeSlot g h hat ?_ hslots fun v' hfat hch => ?_
  · rw [length_set]
    exact (v.data c).2
  · have hclusters := hold k s hhit (hat.getElem? g)
    rw [← hfat] at hclusters
    exact leaves_freeChainOf g hclusters hlong' fun _ =>
      hQ k s v' hdslen hhit (hat.getElem? g) hch

end Changes

end Fat32

end Maios
