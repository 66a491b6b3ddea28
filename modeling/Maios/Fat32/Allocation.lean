import Maios.Fat32.Chain

/-!
# Allocating clusters

The driver takes the first free cluster behind the last one it took, and starts again from the first
cluster when it reaches the end. So an allocation fails only if there are not enough free clusters on
the whole volume. What it leaves is the same volume with a new chain made of free clusters, and
`storeData` fills that chain with the data, padded with zeros.
-/

namespace Maios.Fat32

open List Vol Nat

/-- The mark that allocation puts on a cluster. -/
def endMark : ℕ := 0x0FFFFFFF

/-- The number of free clusters. -/
def Vol.freeCount (p : Fat32Params) (v : Vol p.bytesPerCluster) : ℕ :=
  (List.range' 2 (p.limit - 2)).countP (v.fat · = fat32Free)

/-- The volume after a search for more free clusters than there are: each of them is marked. -/
def Vol.exhausted (p : Fat32Params) (v : Vol p.bytesPerCluster) : Vol p.bytesPerCluster :=
  { v with fat := fun c => if p.Valid c ∧ v.fat c = fat32Free then endMark else v.fat c }

/-- The volume `v'` is `v` with the free clusters `cs` made a chain from `first` on. Nothing is said
about the data in these clusters. -/
structure Fresh (p : Fat32Params) (v v' : Vol p.bytesPerCluster) (first : ℕ) (cs : List ℕ) :
    Prop where
  clusters : Clusters p v'.fat first cs
  free : ∀ c ∈ cs, v.fat c = fat32Free
  fat : ∀ c ∉ cs, v'.fat c = v.fat c
  data : ∀ c ∉ cs, v'.data c = v.data c

theorem Fresh.none {p : Fat32Params} (v : Vol p.bytesPerCluster) : Fresh p v v 0 [] :=
  ⟨.of_lt (by decide), forall_mem_nil _, fun _ _ => rfl, fun _ _ => rfl⟩

/-- So many clusters are needed for some bytes as hold them. -/
theorem clustersNeeded_le_iff {bpc n needed m : ℕ} (h : clustersNeeded bpc n = some needed) :
    needed ≤ m ↔ n ≤ bpc * m := by
  rw [clustersNeeded] at h
  split_ifs at h with hn hbpc
  · rw [← Option.some.inj h, hn]
    exact iff_of_true (zero_le _) (zero_le _)
  · have hpos := Nat.pos_of_ne_zero hbpc
    rw [← Option.some.inj h, ← Nat.lt_succ_iff, div_lt_iff_lt_mul hpos, succ_mul,
      mul_comm m]
    omega

variable {needed : ℕ}

variable {p : Fat32Params} {v : Vol p.bytesPerCluster} {S : Vol p.bytesPerCluster → Prop} {c : ℕ}
  {cs : List ℕ}

theorem mem_range'_limit : c ∈ range' 2 (p.limit - 2) ↔ p.Valid c := by
  rw [mem_range'_1, Fat32Params.Valid]
  omega

/-- The number of free clusters falls by one when a free cluster is taken. -/
theorem Vol.freeCount_setFat (hc : p.Valid c) (hfree : v.fat c = fat32Free) {x : ℕ}
    (hx : x ≠ fat32Free) : (v.setFat c x).freeCount p + 1 = v.freeCount p := by
  obtain ⟨pre, post, hsplit⟩ := append_of_mem (mem_range'_limit.mpr hc)
  have hnodup : (range' 2 (p.limit - 2)).Nodup := nodup_range'
  rw [hsplit, nodup_append, nodup_cons] at hnodup
  obtain ⟨-, ⟨hpost, -⟩, hpre⟩ := hnodup
  have hother : ∀ l : List ℕ, c ∉ l →
      l.countP ((v.setFat c x).fat · = fat32Free) = l.countP (v.fat · = fat32Free) := by
    intro l hl
    refine countP_congr fun c' hc' => ?_
    have hne : c' ≠ c := fun h => hl (h ▸ hc')
    rw [v.setFat_fat_of_ne hne]
  have hbefore : (c :: post).countP (v.fat · = fat32Free) = post.countP (v.fat · = fat32Free) + 1 :=
    countP_cons_of_pos (by simpa using hfree)
  have hafter : (c :: post).countP ((v.setFat c x).fat · = fat32Free) =
      post.countP ((v.setFat c x).fat · = fat32Free) :=
    countP_cons_of_neg (by simpa using hx)
  rw [freeCount, freeCount, hsplit, countP_append, countP_append, hbefore, hafter,
    hother pre fun h => hpre c h c mem_cons_self rfl, hother post hpost, add_assoc]

theorem Vol.freeCount_eq_zero : v.freeCount p = 0 ↔ ∀ c, p.Valid c → v.fat c ≠ fat32Free := by
  simp only [freeCount, countP_eq_zero, mem_range'_limit, decide_eq_true_eq]

theorem Vol.exhausted_eq (h : v.freeCount p = 0) : v.exhausted p = v := by
  refine Vol.ext ?_ rfl
  funext c
  exact if_neg fun hc => freeCount_eq_zero.mp h c hc.1 hc.2

theorem Vol.exhausted_setFat (hc : p.Valid c) (hfree : v.fat c = fat32Free) :
    (v.setFat c endMark).exhausted p = v.exhausted p := by
  refine Vol.ext ?_ rfl
  funext c'
  obtain rfl | heq := eq_or_ne c' c
  · simp [exhausted, hc, hfree]
  · simp [exhausted, v.setFat_fat_of_ne heq]

/-! ### One cluster -/

theorem leaves_allocateFrom {Q : Option ℕ → Vol p.bytesPerCluster → Prop}
    (hcs : ∀ c ∈ cs, p.Valid c) (hnone : (∀ c ∈ cs, v.fat c ≠ fat32Free) → Q none v)
    (hsome : ∀ c ∈ cs, v.fat c = fat32Free → Q (some c) (v.setFat c endMark)) :
    Leaves p (allocateFrom cs) v S Q := by
  induction cs with
  | nil => exact hnone fun c hc => absurd hc not_mem_nil
  | cons c cs ih =>
    have hc := hcs c mem_cons_self
    rw [allocateFrom, leaves_bind]
    refine leaves_fatEntry hc ?_
    split_ifs with hfree
    · rw [leaves_bind]
      exact leaves_setFatEntry hc (by decide) (hsome c mem_cons_self hfree)
    refine ih (forall_mem_cons.mp hcs).2 (fun hall => hnone ?_)
      (forall_mem_cons.mp hsome).2
    intro c' hc'
    rcases mem_cons.mp hc' with rfl | hc'
    · exact hfree
    · exact hall c' hc'

/-- One free cluster, marked and filled. -/
theorem Fresh.one (hc : p.Valid c) (hfree : v.fat c = fat32Free)
    (b : Storage.Block p.bytesPerCluster) : Fresh p v ((v.setFat c endMark).setData c b) c [c] := by
  refine ⟨.of_chain (.last hc ?_), fun c' hc' => ?_, fun c' hc' => ?_, fun c' hc' => ?_⟩
  · rw [setData_fat, setFat_fat_self]
    decide
  · rw [mem_singleton.mp hc']
    exact hfree
  · have hne : c' ≠ c := fun heq => hc' (mem_singleton.mpr heq)
    rw [setData_fat, v.setFat_fat_of_ne hne]
  · have hne : c' ≠ c := fun heq => hc' (mem_singleton.mpr heq)
    rw [setData_data_of_ne _ hne, setFat_data]

variable {hint : ℕ} {Q : List ℕ → Vol p.bytesPerCluster → Prop}

/-- Every cluster is tried, and nothing else. -/
theorem mem_candidates (hhint : hint ≤ p.limit) : c ∈ candidates p.limit hint ↔ p.Valid c := by
  rw [candidates, mem_append, mem_range'_1, mem_range'_1, Fat32Params.Valid]
  split_ifs with h <;> omega

variable (g : Geometry p) {count : ℕ} {data : Bytes}

include g

theorem leaves_allocateCluster {Q : ℕ → Vol p.bytesPerCluster → Prop} (hhint : hint ≤ p.limit)
    (hR : v.freeCount p = 0 → S v)
    (hQ : ∀ c, p.Valid c → v.fat c = fat32Free → Q c (v.setFat c endMark)) :
    Leaves p (allocateCluster p hint) v S Q := by
  rw [allocateCluster, g.clusterLimit, leaves_bind]
  refine leaves_allocateFrom (fun c hc => (mem_candidates hhint).mp hc) (fun hall => ?_)
    fun c hc hfree => hQ c ((mem_candidates hhint).mp hc) hfree
  refine hR (freeCount_eq_zero.mpr fun c hc => ?_)
  exact hall c ((mem_candidates hhint).mpr hc)

/-! ### Many clusters -/

/-- The clusters taken were free, they are different, and they carry the mark. If there are not
enough of them, all are taken all the same. -/
theorem leaves_allocateMany (hhint : hint ≤ p.limit)
    (hR : v.freeCount p < count → S (v.exhausted p))
    (hQ : ∀ cs, cs.length = count → cs.Nodup → (∀ c ∈ cs, p.Valid c ∧ v.fat c = fat32Free) →
      ∀ v', v'.data = v.data → (∀ c, v'.fat c = if c ∈ cs then endMark else v.fat c) → Q cs v') :
    Leaves p (allocateMany p count hint) v S Q := by
  induction count generalizing v hint Q with
  | zero => exact hQ [] rfl nodup_nil (forall_mem_nil _) v rfl fun c => rfl
  | succ count ih =>
    rw [allocateMany, leaves_bind]
    refine leaves_allocateCluster g hhint (fun hzero => ?_) fun c hc hfree => ?_
    · rw [← exhausted_eq hzero]
      exact hR (by omega)
    have hcount := freeCount_setFat (x := endMark) hc hfree (by decide)
    rw [leaves_bind]
    refine ih hc.2 (fun hlt => exhausted_setFat hc hfree ▸ hR (by omega))
      fun cs hlen hnodup hcs v' hdata hfat => ?_
    have hnot : c ∉ cs := by
      intro hmem
      have hmark := (hcs c hmem).2
      rw [v.setFat_fat_self] at hmark
      exact absurd hmark (by decide)
    refine hQ (c :: cs) (congrArg (· + 1) hlen) (nodup_cons.mpr ⟨hnot, hnodup⟩) ?_ v' hdata ?_
    · intro c' hc'
      rcases mem_cons.mp hc' with rfl | hc'
      · exact ⟨hc, hfree⟩
      · have hne : c' ≠ c := fun h => hnot (h ▸ hc')
        refine ⟨(hcs c' hc').1, ?_⟩
        rw [← v.setFat_fat_of_ne hne endMark]
        exact (hcs c' hc').2
    · intro c'
      rw [hfat c']
      obtain rfl | heq := eq_or_ne c' c
      · rw [v.setFat_fat_self, ite_self, if_pos mem_cons_self]
      · simp only [v.setFat_fat_of_ne heq, mem_cons, heq, false_or]

/-- Marked clusters become a chain. -/
theorem leaves_linkClusters {Q : Unit → Vol p.bytesPerCluster → Prop} (first : ℕ)
    (hnodup : (first :: cs).Nodup) (hvalid : ∀ c ∈ first :: cs, p.Valid c)
    (hmark : ∀ c ∈ first :: cs, v.fat c = endMark)
    (hQ : ∀ v', v'.data = v.data → (∀ c ∉ first :: cs, v'.fat c = v.fat c) →
      Chain p v'.fat first (first :: cs) → Q () v') :
    Leaves p (linkClusters (first :: cs)) v S Q := by
  induction cs generalizing v first Q with have hfirst := hvalid first mem_cons_self
  | nil =>
    refine hQ v rfl (fun _ _ => rfl) (.last hfirst ?_)
    rw [hmark first mem_cons_self]
    decide
  | cons c cs ih =>
    have hc := hvalid c (mem_cons_of_mem _ mem_cons_self)
    rw [linkClusters, leaves_bind]
    refine leaves_setFatEntry hfirst (g.valid_lt_two_pow hc) ?_
    rw [nodup_cons] at hnodup
    have hne : ∀ c' ∈ c :: cs, c' ≠ first := fun c' hc' h => hnodup.1 (h ▸ hc')
    refine ih c hnodup.2 (forall_mem_cons.mp hvalid).2 ?_ ?_
    · intro c' hc'
      rw [v.setFat_fat_of_ne (hne c' hc')]
      exact hmark c' (mem_cons_of_mem _ hc')
    · intro v' hdata hfat hchain
      refine hQ v' hdata ?_ ?_
      · intro c' hc'
        rw [mem_cons, not_or] at hc'
        rw [hfat c' hc'.2, v.setFat_fat_of_ne hc'.1]
      · -- the first entry is not touched any more
        have hnext : v'.fat first = c := by
          rw [hfat first hnodup.1, v.setFat_fat_self]
        refine .link hfirst ?_ (hnext.symm ▸ hchain)
        rw [hnext]
        exact g.valid_not_end hc

/-- **Allocation makes a chain of free clusters.** -/
theorem leaves_allocateChain (hcount : 0 < count) (hR : v.freeCount p < count → S (v.exhausted p))
    (hQ : ∀ first cs v', (first :: cs).length = count → v'.data = v.data →
      Fresh p v v' first (first :: cs) → Q (first :: cs) v') :
    Leaves p (allocateChain p count) v S Q := by
  rw [allocateChain, if_neg (ne_of_gt hcount), leaves_bind]
  refine leaves_allocateMany g p.two_le_limit hR fun cs hlen hnodup hcs v₁ hdata₁ hfat₁ => ?_
  obtain ⟨first, cs, rfl⟩ := exists_cons_of_length_pos (hlen ▸ hcount)
  rw [leaves_bind]
  refine leaves_linkClusters g first hnodup (fun c hc => (hcs c hc).1) ?_ ?_
  · intro c hc
    rw [hfat₁, if_pos hc]
  · intro v₂ hdata₂ hfat₂ hchain
    refine hQ first cs v₂ hlen (hdata₂.trans hdata₁) ?_
    refine ⟨.of_chain hchain, fun c hc => (hcs c hc).2, fun c hc => ?_, fun c _ => ?_⟩
    · rw [hfat₂ c hc, hfat₁, if_neg hc]
    · rw [hdata₂, hdata₁]

/-- A chain gets one more cluster. -/
theorem leaves_extendChain {first last : ℕ} (hchain : Chain p v.fat first cs)
    (hlast : cs.getLast? = some last) (hR : v.freeCount p = 0 → S v)
    (hQ : ∀ c v', v.fat c = fat32Free → c ∉ cs → v'.data = v.data →
      (∀ c' ∉ c :: cs, v'.fat c' = v.fat c') → Chain p v'.fat first (cs ++ [c]) → Q [c] v') :
    Leaves p (extendChain p last 1) v S Q := by
  rw [extendChain, if_neg one_ne_zero, leaves_bind]
  refine leaves_allocateChain g zero_lt_one (fun h => ?_) ?_
  · have hzero : v.freeCount p = 0 := lt_one_iff.mp h
    rw [exhausted_eq hzero]
    exact hR hzero
  intro c rest v₁ hlen hdata hfresh
  obtain rfl : rest = [] := length_eq_zero_iff.mp (succ_injective hlen)
  have hfree : v.fat c = fat32Free := hfresh.free c mem_cons_self
  have hnot : c ∉ cs := fun hmem => hchain.not_free hmem hfree
  have hlastmem : last ∈ cs := mem_of_mem_getLast? hlast
  have hne : c ≠ last := fun h => hnot (h ▸ hlastmem)
  have hc : p.Valid c := hfresh.clusters.valid mem_cons_self
  rw [leaves_bind]
  refine leaves_setFatEntry (hchain.ok_of_mem hlastmem) (g.valid_lt_two_pow hc) ?_
  refine hQ c _ hfree hnot hdata ?_ ?_
  · intro c' hc'
    rw [mem_cons, not_or] at hc'
    have hne' : c' ≠ last := fun h => hc'.2 (h ▸ hlastmem)
    rw [v₁.setFat_fat_of_ne hne']
    exact hfresh.fat c' (fun h => hc'.1 (mem_singleton.mp h))
  · have hend : fat32Eoc ≤ v₁.fat c := by
      rcases hfresh.clusters.cases with hthread | ⟨_, hnil⟩
      · rcases hthread with ⟨_, hstop⟩ | ⟨_, _, hrest⟩
        · exact hstop
        · exact absurd hrest.head_mem not_mem_nil
      · exact absurd hnil (cons_ne_nil _ _)
    refine Thread.snoc hchain hc (g.valid_not_end hc) ?_ ?_ ?_
    · rw [v₁.setFat_fat_of_ne hne]
      exact hend
    · intro c' hc'
      rw [hlast] at hc'
      obtain rfl : last = c' := Option.mem_some_iff.mp hc'
      rw [v₁.setFat_fat_self]
    · intro c' hc' hc''
      have hne' : c' ≠ last := fun h => hc'' (h ▸ hlast)
      rw [v₁.setFat_fat_of_ne hne']
      exact hfresh.fat c' fun h => hnot (mem_singleton.mp h ▸ hc')

/-! ### Storing data -/

omit g in
/-- The clusters of a list hold the data in order, padded with zeros. -/
theorem leaves_writeClusters {Q : Unit → Vol p.bytesPerCluster → Prop} (hnodup : cs.Nodup)
    (hvalid : ∀ c ∈ cs, p.Valid c)
    (hQ : ∀ v', v'.fat = v.fat → (∀ c ∉ cs, v'.data c = v.data c) →
      v'.contents cs = resize data (p.bytesPerCluster * cs.length) → Q () v') :
    Leaves p (writeClusters p.bytesPerCluster cs data) v S Q := by
  induction cs generalizing v data Q with
  | nil => exact hQ v rfl (fun _ _ => rfl) (by simp [contents, resize])
  | cons c cs ih =>
    rw [nodup_cons] at hnodup
    rw [writeClusters, leaves_bind]
    refine leaves_writeCluster (hvalid c mem_cons_self) (length_resize _ _) ?_
    refine ih hnodup.2 (forall_mem_cons.mp hvalid).2 ?_
    intro v' hfat hdata hcontents
    refine hQ v' hfat ?_ ?_
    · intro c' hc'
      rw [mem_cons, not_or] at hc'
      rw [hdata c' hc'.2, v.setData_data_of_ne hc'.1]
    · have hblock : (v'.data c).1 = resize (data.take p.bytesPerCluster) p.bytesPerCluster := by
        rw [hdata c hnodup.1, v.setData_data_self]
      rw [contents, flatMap_cons, ← contents, hblock, hcontents, length_cons,
        resize_mul_succ]

/-- **Data is stored in a chain of free clusters.** -/
theorem leaves_storeData {Q : ℕ → Vol p.bytesPerCluster → Prop}
    (hneeded : clustersNeeded p.bytesPerCluster data.length = some needed)
    (hR : v.freeCount p < needed → S (v.exhausted p))
    (hQ : ∀ first cs v', cs.length = needed → first < 2 ^ 28 → Fresh p v v' first cs →
      (v'.contents cs).take data.length = data → Q first v') :
    Leaves p (storeData p needed data) v S Q := by
  rw [storeData]
  split_ifs with hzero
  · have hle := (clustersNeeded_le_iff hneeded).mp (le_of_eq hzero)
    have hempty : data = [] := length_eq_zero_iff.mp (le_zero.mp hle)
    rw [hempty] at hQ
    exact hQ 0 [] v hzero.symm (by decide) (.none v) rfl
  rw [leaves_bind]
  refine leaves_allocateChain g (Nat.pos_of_ne_zero hzero) hR ?_
  intro first cs v₁ hlen hdata₁ hfresh
  rw [leaves_bind]
  refine leaves_writeClusters hfresh.clusters.nodup (fun c hc => hfresh.clusters.valid hc) ?_
  intro v₂ hfat₂ hdata₂ hcontents
  have hfirst : p.Valid first := hfresh.clusters.valid mem_cons_self
  refine hQ first (first :: cs) v₂ hlen (g.valid_lt_two_pow hfirst) ?_ ?_
  · refine ⟨hfat₂.symm ▸ hfresh.clusters, hfresh.free, fun c hc => ?_, fun c hc => ?_⟩
    · rw [hfat₂, hfresh.fat c hc]
    · rw [hdata₂ c hc, hdata₁]
  · rw [hcontents, hlen, resize_of_le _ ((clustersNeeded_le_iff hneeded).mp le_rfl), take_left']
    rfl

end Maios.Fat32
