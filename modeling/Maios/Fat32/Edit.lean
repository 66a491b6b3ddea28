import Maios.Fat32.Directory

/-!
# Edits of a volume

Every call of the driver that changes files does the same kind of thing to a volume: it changes the
slots of one directory, frees the clusters of an old entry and makes a chain of free clusters for a
new one. The directory itself may take a free cluster, too. An *edit* is a change of a volume of this
kind. Everything else, the other clusters and their places in the FAT, is left alone.
-/

namespace Maios.Fat32

open List DirEntry83

/-- The volume `v'` is `v` with other slots in the directory `dir`, whose clusters `ds` are extended
by `ext`, with the clusters `olds` freed and the clusters `news` made a chain from `first` on. -/
structure Edit (p : Fat32Params) (v v' : Vol p.bytesPerCluster) (dir : ℕ) (ds ext olds news : List ℕ)
    (first : ℕ) (slots : List Bytes) : Prop where
  chain : Chain p v'.fat dir (ds ++ ext)
  slots : v'.slots (ds ++ ext) = slots
  clusters : Clusters p v'.fat first news
  /-- Clusters are taken only if they are free, or have just been freed. -/
  fresh : ∀ c, c ∈ ext ∨ c ∈ news → c ∉ ds ∧ (v.fat c = fat32Free ∨ c ∈ olds)
  apart : ∀ c ∈ ext, c ∉ news
  freed : ∀ c ∈ olds, c ∉ ext → c ∉ news → v'.fat c = fat32Free
  fat : ∀ c, c ∉ ds → c ∉ ext → c ∉ news → c ∉ olds → v'.fat c = v.fat c
  data : ∀ c, c ∉ ds → c ∉ ext → c ∉ news → v'.data c = v.data c

section

variable {p : Fat32Params} {v v₁ v' : Vol p.bytesPerCluster} {dir first c bpc : ℕ}
  {ds ext olds news cs : List ℕ} {slots : List Bytes}

theorem Vol.freeAll_fat_of_mem (v : Vol bpc) (h : c ∈ cs) :
    (v.freeAll cs).fat c = fat32Free := if_pos h

theorem Vol.freeAll_fat_of_not_mem (v : Vol bpc) (h : c ∉ cs) :
    (v.freeAll cs).fat c = v.fat c := if_neg h

section

variable (hchain : Chain p v.fat dir ds) (holds : ∀ c ∈ olds, c ∉ ds)
  (hfresh : Fresh p (v.freeAll olds) v₁ first news)

include hchain holds hfresh

/-- The clusters of the directory are not taken. -/
theorem Fresh.not_mem (hc : c ∈ ds) : c ∉ news := by
  intro hnew
  have hfree := hfresh.free c hnew
  rw [v.freeAll_fat_of_not_mem fun hold => holds c hold hc] at hfree
  exact hchain.not_free hc hfree

/-- The directory is the same after old clusters have been freed and new ones taken. -/
theorem Fresh.chain : Chain p v₁.fat dir ds ∧ v₁.slots ds = v.slots ds := by
  constructor
  · refine Thread.congr hchain fun c hc => ?_
    rw [hfresh.fat c (hfresh.not_mem hchain holds hc),
      v.freeAll_fat_of_not_mem fun hold => holds c hold hc]
  · exact Vol.slots_congr fun c hc => hfresh.data c (hfresh.not_mem hchain holds hc)

/-- The new clusters are not those of the directory, also after a change of it. -/
theorem Fresh.not_mem_changed (hchanged : DirChanged p v₁ v' dir ds ext slots) (hc : c ∈ news) :
    c ∉ ds ++ ext := by
  intro hmem
  rcases mem_append.mp hmem with hmem | hmem
  · exact hfresh.not_mem hchain holds hmem hc
  · exact hfresh.clusters.not_free hc (hchanged.free c hmem)

/-- New clusters and a change of the directory make an edit. -/
theorem Fresh.edit (hchanged : DirChanged p v₁ v' dir ds ext slots) :
    Edit p v v' dir ds ext olds news first slots := by
  have hapart : ∀ c ∈ ext, c ∉ news := fun c hc hnew =>
    hfresh.not_mem_changed hchain holds hchanged hnew (mem_append_right _ hc)
  have hext : ∀ c ∈ ext, (v.freeAll olds).fat c = fat32Free := by
    intro c hc
    rw [← hfresh.fat c (hapart c hc)]
    exact hchanged.free c hc
  have hnot : ∀ {c}, c ∉ ds → c ∉ ext → c ∉ ds ++ ext := by
    intro c hds hext hmem
    exact (mem_append.mp hmem).elim hds hext
  have htaken : ∀ c, c ∈ ext ∨ c ∈ news → (v.freeAll olds).fat c = fat32Free :=
    fun c hc => hc.elim (hext c) (hfresh.free c)
  refine ⟨hchanged.chain, hchanged.slots, ?_, ?_, hapart, ?_, ?_, ?_⟩
  · exact hfresh.clusters.congr fun c hc =>
      hchanged.fat c (hfresh.not_mem_changed hchain holds hchanged hc)
  · intro c hc
    have hfree := htaken c hc
    by_cases hold : c ∈ olds
    · exact ⟨holds c hold, .inr hold⟩
    · rw [v.freeAll_fat_of_not_mem hold] at hfree
      exact ⟨fun hmem => hchain.not_free hmem hfree, .inl hfree⟩
  · intro c hold hcext hnew
    rw [hchanged.fat c (hnot (holds c hold) hcext), hfresh.fat c hnew, v.freeAll_fat_of_mem hold]
  · intro c hds hcext hnew hold
    rw [hchanged.fat c (hnot hds hcext), hfresh.fat c hnew, v.freeAll_fat_of_not_mem hold]
  · intro c hds hcext hnew
    rw [hchanged.data c (hnot hds hcext), hfresh.data c hnew]
    rfl

end

/-- A change of the directory, with the clusters of an old entry freed behind it, makes an edit. -/
theorem DirChanged.edit_freeAll (hchanged : DirChanged p v v₁ dir ds [] slots)
    (holds : ∀ c ∈ olds, c ∉ ds) : Edit p v (v₁.freeAll olds) dir ds [] olds [] 0 slots := by
  have hnil : ∀ c, ¬ (c ∈ ([] : List ℕ) ∨ c ∈ ([] : List ℕ)) :=
    fun c hc => hc.elim not_mem_nil not_mem_nil
  have happ : ∀ {c}, c ∉ ds → c ∉ ds ++ [] := by
    intro c hc
    rwa [append_nil]
  refine ⟨?_, hchanged.slots, .of_lt (by decide), fun c hc => absurd hc (hnil c),
    forall_mem_nil _, fun c hold _ _ => v₁.freeAll_fat_of_mem hold, ?_, ?_⟩
  · refine Thread.congr hchanged.chain fun c hc => v₁.freeAll_fat_of_not_mem fun hold => ?_
    rw [append_nil] at hc
    exact holds c hold hc
  · intro c hds _ _ hold
    rw [v₁.freeAll_fat_of_not_mem hold, hchanged.fat c (happ hds)]
  · intro c hds _ _
    exact hchanged.data c (happ hds)

end

/-! ### The calls of the driver -/

/-- The first cluster of the entry that is found under a name, or 0 if there is none. -/
def foundCluster (upper : Name → Name) (name : Name) (slots : List Bytes) : ℕ :=
  match findSlot upper name slots with
  | some (_, e) => e.cluster
  | none => 0

/-- Where a file of this name is written, and the directory afterwards: in the slot with the eleven
bytes of the name if the name is found, and else in the free slot. -/
def writtenSlots (upper : Name → Name) (n : ℕ) (name : Name) (first size : ℕ) (slots : List Bytes) :
    Option (ℕ × List Bytes) :=
  match findSlot upper name slots with
  | some _ =>
    match targetSlot name slots with
    | .hit k => some (k, slots.set k (updateSlot (slots.getD k []) 0 first size))
    | _ => none
  | none =>
    let k := freeSlot slots
    some (k, putSlot n slots k (DirEntry83.ofCluster (nameTo83 name) attrArchive first size).toBytes)

section Calls

variable {p : Fat32Params} (g : Geometry p) {v : Vol p.bytesPerCluster} {R : Prop}
  {S : Vol p.bytesPerCluster → Prop} {dir : ℕ}
  {ds olds : List ℕ} {Q : Unit → Vol p.bytesPerCluster → Prop}

include g

section

variable (h : Chain p v.fat dir ds) (name : Name)

include h

/-- **Writing a file is an edit.** Its old clusters are freed and its data is in the new ones. It
fails only if a chain is too long, if there is not enough space, if there is no slot with the eleven
bytes of the name although the name is found, or if a new entry finds no free slot. -/
theorem leaves_writeFile {upper : Name → Name} {name : Name} {data : Bytes} {needed : ℕ}
    (hneeded : clustersNeeded p.bytesPerCluster data.length = some needed)
    (hold : Clusters p v.fat (foundCluster upper name (v.slots ds)) olds)
    (holds : ∀ c ∈ olds, c ∉ ds) (hlong : maxChain < ds.length → S v)
    (hlong' : maxChain < olds.length → S v)
    (hspace : ds.length ≤ maxChain → olds.length ≤ maxChain →
      (v.freeAll olds).freeCount p < needed → S ((v.freeAll olds).exhausted p))
    (habsent : ds.length ≤ maxChain → olds.length ≤ maxChain →
      findSlot upper name (v.slots ds) ≠ none → (∀ k, targetSlot name (v.slots ds) ≠ .hit k) →
      ∀ first news v₁, news.length = needed → Fresh p (v.freeAll olds) v₁ first news → S v₁)
    (hfull : ds.length ≤ maxChain → findSlot upper name (v.slots ds) = none →
      freeSlot (v.slots ds) = (v.slots ds).length → ∀ first news v₁, news.length = needed →
      Fresh p v v₁ first news → v₁.freeCount p = 0 → S v₁)
    (hQ : ∀ ext news first v' k slots, ds.length ≤ maxChain → news.length = needed →
      first < 2 ^ 28 →
      writtenSlots upper p.slotsPerCluster name first (data.length % 2 ^ 32) (v.slots ds) =
        some (k, slots) →
      Edit p v v' dir ds ext olds news first slots →
      (v'.contents news).take data.length = data → Q () v') :
    Leaves p (writeFile upper p dir name data) v S Q := by
  rw [writeFile, hneeded]
  simp only [leaves_bind]
  refine leaves_findEntry g (.of_chain h) hlong fun hlen => ?_
  -- the new clusters hold the data also after the directory has been changed
  have hcontents : ∀ {first news ext slots v₁ v'}, Fresh p (v.freeAll olds) v₁ first news →
      DirChanged p v₁ v' dir ds ext slots → (v₁.contents news).take data.length = data →
      (v'.contents news).take data.length = data := by
    intro first news ext slots v₁ v' hfresh hchanged htake
    rw [Vol.contents_congr fun c hc => hchanged.data c (hfresh.not_mem_changed h holds hchanged hc),
      htake]
  rcases hfind : findSlot upper name (v.slots ds) with _ | ⟨j, e⟩ <;>
    rw [foundCluster, hfind] at hold
  · obtain rfl : olds = [] := hold.eq_nil (by decide)
    simp only [Option.map_none, leaves_bind]
    refine leaves_storeData g hneeded (hspace hlen (Nat.zero_le _))
      fun first news v₁ hlen₁ hfirst hfresh htake => ?_
    obtain ⟨hchain₁, hslots₁⟩ := hfresh.chain h holds
    refine leaves_createDirEntry g hchain₁ name attrArchive first (data.length % 2 ^ 32)
      (fun hlong => absurd hlen (not_le.mpr hlong))
      (fun hlast => hfull hlen hfind (hslots₁ ▸ hlast) first news v₁ hlen₁ hfresh)
      fun ext v' hchanged => ?_
    rw [hslots₁] at hchanged
    refine hQ ext news first v' (freeSlot (v.slots ds)) _ hlen hlen₁ hfirst ?_ (hfresh.edit h holds hchanged)
      (hcontents hfresh hchanged htake)
    rw [writtenSlots, hfind]
  · simp only [Option.map_some, leaves_bind]
    refine leaves_freeChainOf g hold hlong' fun hlen' => ?_
    refine leaves_storeData g hneeded (hspace hlen hlen')
      fun first news v₁ hlen₁ hfirst hfresh htake => ?_
    obtain ⟨hchain₁, hslots₁⟩ := hfresh.chain h holds
    refine leaves_updateDirEntry g hchain₁ name first (data.length % 2 ^ 32)
      (fun hlong => absurd hlen (not_le.mpr hlong)) ?_ ?_
    · rw [hslots₁]
      exact fun hmiss => habsent hlen hlen' (hfind ▸ Option.some_ne_none _) hmiss first news v₁ hlen₁
        hfresh
    · intro k s v' hhit hs _ hchanged
      rw [hslots₁] at hhit hs hchanged
      refine hQ [] news first v' k _ hlen hlen₁ hfirst ?_ (hfresh.edit h holds hchanged)
        (hcontents hfresh hchanged htake)
      rw [writtenSlots, hfind]
      simp only [hhit, getD_eq_getElem?_getD, hs, Option.getD_some]

/-- **Deleting a file is an edit.** -/
theorem does_deleteFile_edit
    (hold : ∀ k s, targetSlot name (v.slots ds) = .hit k → (v.slots ds)[k]? = some s →
      Clusters p v.fat (slotCluster s) olds)
    (holds : ∀ c ∈ olds, c ∉ ds) (hlong : maxChain < ds.length → R)
    (hlong' : maxChain < olds.length → R)
    (habsent : (∀ k, targetSlot name (v.slots ds) ≠ .hit k) → R)
    (hQ : ∀ k s v', ds.length ≤ maxChain → targetSlot name (v.slots ds) = .hit k →
      (v.slots ds)[k]? = some s →
      Edit p v v' dir ds [] olds [] 0 ((v.slots ds).set k (s.set 0 0xE5)) → Q () v') :
    Does p (deleteFile dir name) v R Q :=
  does_deleteFile g h name hold hlong hlong' habsent fun k s _ hlen hhit hs hchanged =>
    hQ k s _ hlen hhit hs (hchanged.edit_freeAll holds)

/-- A new entry without clusters is an edit. -/
theorem does_createDirEntry_edit (attr : UInt8) (size : ℕ)
    (hlong : maxChain < ds.length → R) (hfull : R)
    (hQ : ∀ ext v', Edit p v v' dir ds ext [] [] 0
        (putSlot p.slotsPerCluster (v.slots ds) (freeSlot (v.slots ds))
          (ofCluster (nameTo83 name) attr 0 size).toBytes) → Q () v') :
    Does p (createDirEntry p dir name attr 0 size) v R Q := by
  have hnone : ∀ c ∈ ([] : List ℕ), c ∉ ds := forall_mem_nil _
  refine leaves_createDirEntry g h name attr 0 size hlong (fun _ _ => hfull) fun ext v' hchanged => ?_
  exact hQ ext v' ((Fresh.none v).edit h hnone hchanged)

end

/-- The slots of a new directory. -/
theorem slotsExact_newDir {s t : Bytes} (hs : s.length = 32) (ht : t.length = 32) :
    slotsExact (s ++ t ++ replicate (p.bytesPerCluster - 64) 0) =
      s :: t :: replicate (p.slotsPerCluster - 2) (replicate 32 0) := by
  have hzeros : p.bytesPerCluster - 64 = 32 * (p.slotsPerCluster - 2) := by
    have := g.bytesPerCluster_eq
    omega
  have htail : (t ++ replicate (32 * (p.slotsPerCluster - 2)) (0 : UInt8)).length =
      32 * (p.slotsPerCluster - 2 + 1) := by
    rw [length_append, length_replicate]
    omega
  rw [hzeros, append_assoc, slotsExact_append hs htail,
    slotsExact_append ht length_replicate, slotsExact_zeros]

/-- **A new directory is an edit.** Its cluster holds the entries for itself and its parent. -/
theorem does_insertDir (h : Chain p v.fat dir ds) (name : Name) (hR : R)
    (hQ : ∀ ext c v', Edit p v v' dir ds ext [] [c] c
        (putSlot p.slotsPerCluster (v.slots ds) (freeSlot (v.slots ds))
          (ofCluster (nameTo83 name) attrDirectory c 0).toBytes) →
      v'.slots [c] = (ofCluster dotName attrDirectory c 0).toBytes ::
        (ofCluster dotDotName attrDirectory dir 0).toBytes ::
          replicate (p.slotsPerCluster - 2) (replicate 32 0) → p.Valid c → Q () v') :
    Does p (insertDir p dir name) v R Q := by
  have hnone : ∀ c ∈ ([] : List ℕ), c ∉ ds := forall_mem_nil _
  have hbpc : ¬ p.bytesPerCluster < 64 := by
    have := g.le_bytesPerCluster
    omega
  rw [insertDir, does_bind]
  refine leaves_allocateCluster g p.two_le_limit (fun _ => hR) fun c hc hfree => ?_
  have hdot : (ofCluster dotName attrDirectory c 0).toBytes.length = 32 :=
    length_toBytes _
  have hdotDot : (ofCluster dotDotName attrDirectory dir 0).toBytes.length = 32 :=
    length_toBytes _
  have hbuf := slotsExact_newDir g hdot hdotDot
  replace hQ := fun ext => hQ ext c
  generalize (ofCluster dotName attrDirectory c 0).toBytes = dot at *
  generalize (ofCluster dotDotName attrDirectory dir 0).toBytes = dotDot at *
  rw [if_neg hbpc, does_bind]
  have hlen : (dot ++ dotDot ++ replicate (p.bytesPerCluster - 64) 0).length =
      p.bytesPerCluster := by
    rw [length_append, length_append, length_replicate]
    omega
  refine leaves_writeCluster hc hlen ?_
  have hfresh : Fresh p (v.freeAll []) _ c [c] := Fresh.one hc hfree ⟨_, hlen⟩
  obtain ⟨hchain₁, hslots₁⟩ := hfresh.chain h hnone
  refine leaves_createDirEntry g hchain₁ name attrDirectory c 0 (fun _ => hR) (fun _ _ => hR)
    fun ext v' hchanged => ?_
  rw [hslots₁] at hchanged
  refine hQ ext v' (hfresh.edit h hnone hchanged) ?_ hc
  have hdata : v'.data c = ⟨_, hlen⟩ := by
    rw [hchanged.data c (hfresh.not_mem_changed h hnone hchanged mem_cons_self),
      Vol.setData_data_self]
  have hslots : v'.slots [c] = slotsExact (v'.data c).1 := append_nil _
  rw [hslots, hdata, hbuf]

end Calls

end Maios.Fat32
