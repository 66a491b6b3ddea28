import Maios.Library.Thread
import Maios.Fat32.Volume

/-!
# Chains of clusters

The clusters of a file or directory are a thread through the FAT: each entry names the next cluster
and the last entry is an end-of-chain mark. Here is what the driver's functions on chains do on a
volume: walk along a chain, free it and read data from it. A walk gives up after a million clusters,
and that is the only reason for which they fail.
-/

namespace Maios.Fat32

open List Nat

/-- The clusters from `first` on, all of them clusters of the volume, with an end-of-chain mark at
the last one. -/
def Chain (p : Fat32Params) (fat : ℕ → ℕ) : ℕ → List ℕ → Prop :=
  Thread p.Valid (fat32Eoc ≤ ·) fat

/-- The clusters of an entry with this first cluster; an entry without data has none. -/
def Clusters (p : Fat32Params) (fat : ℕ → ℕ) (first : ℕ) (cs : List ℕ) : Prop :=
  if 2 ≤ first then Chain p fat first cs else cs = []

namespace Vol

variable {bpc : ℕ}

/-- The volume with these clusters free. -/
def freeAll (v : Vol bpc) (cs : List ℕ) : Vol bpc :=
  { v with fat := fun c => if c ∈ cs then fat32Free else v.fat c }

/-- The bytes of these clusters. -/
def contents (v : Vol bpc) (cs : List ℕ) : Bytes := cs.flatMap fun c => (v.data c).1

theorem contents_congr {v v' : Vol bpc} {cs : List ℕ} (h : ∀ c ∈ cs, v'.data c = v.data c) :
    v'.contents cs = v.contents cs :=
  flatMap_congr fun c hc => congrArg Subtype.val (h c hc)

end Vol

section Chains

variable {p : Fat32Params} {fat fat' : ℕ → ℕ} {first c : ℕ} {cs cs' : List ℕ}

theorem Chain.two_le (h : Chain p fat first cs) : 2 ≤ first := (h.ok_of_mem h.head_mem).1

theorem Clusters.of_chain (h : Chain p fat first cs) : Clusters p fat first cs := by
  rw [Clusters, if_pos h.two_le]
  exact h

theorem Clusters.of_lt (h : first < 2) : Clusters p fat first [] := by
  rw [Clusters, if_neg (not_le.mpr h)]

section

variable (h : Clusters p fat first cs)

include h

theorem Clusters.chain (hfirst : 2 ≤ first) : Chain p fat first cs := by
  rwa [Clusters, if_pos hfirst] at h

theorem Clusters.eq_nil (hfirst : first < 2) : cs = [] := by
  rwa [Clusters, if_neg (not_le.mpr hfirst)] at h

theorem Clusters.cases : Chain p fat first cs ∨ first < 2 ∧ cs = [] := by
  rcases lt_or_ge first 2 with hfirst | hfirst
  · exact .inr ⟨hfirst, h.eq_nil hfirst⟩
  · exact .inl (h.chain hfirst)

end

theorem Clusters.lt_two (h : Clusters p fat first []) : first < 2 := by
  rcases h.cases with hchain | ⟨hlt, -⟩
  · cases hchain
  · exact hlt

section

variable (h : Clusters p fat first cs)

include h

theorem Clusters.eq (h' : Clusters p fat first cs') : cs = cs' := by
  rcases lt_or_ge first 2 with hfirst | hfirst
  · rw [h.eq_nil hfirst, h'.eq_nil hfirst]
  · exact Thread.eq (h.chain hfirst) (h'.chain hfirst)

theorem Clusters.valid (hc : c ∈ cs) : p.Valid c := by
  rcases h.cases with h | ⟨_, rfl⟩
  · exact h.ok_of_mem hc
  · exact absurd hc not_mem_nil

theorem Clusters.nodup : cs.Nodup := by
  rcases h.cases with h | ⟨_, rfl⟩
  · exact h.nodup
  · exact nodup_nil

theorem Clusters.congr (hfat : ∀ c ∈ cs, fat' c = fat c) : Clusters p fat' first cs := by
  rcases h.cases with h | ⟨hfirst, rfl⟩
  · exact .of_chain (Thread.congr h hfat)
  · exact .of_lt hfirst

end

/-- The clusters of a chain are not free. -/
theorem Chain.not_free (h : Chain p fat first cs) (hc : c ∈ cs) : fat c ≠ fat32Free := by
  induction h with
  | last _ hstop =>
    rw [mem_singleton.mp hc]
    intro hfree
    rw [hfree] at hstop
    exact absurd hstop (by decide)
  | link _ _ h ih =>
    rcases mem_cons.mp hc with rfl | hc
    · intro hfree
      have hnext : p.Valid _ := h.ok_of_mem h.head_mem
      rw [hfree] at hnext
      exact absurd hnext.1 (by decide)
    · exact ih hc

theorem Clusters.not_free (h : Clusters p fat first cs) (hc : c ∈ cs) : fat c ≠ fat32Free := by
  rcases h.cases with h | ⟨_, rfl⟩
  · exact h.not_free hc
  · exact absurd hc not_mem_nil

end Chains

section Specs

variable {p : Fat32Params} (g : Geometry p) {v : Vol p.bytesPerCluster} {R : Prop}
  {S : Vol p.bytesPerCluster → Prop} {first c : ℕ}
  {cs : List ℕ}

include g

theorem Geometry.valid_lt (hc : p.Valid c) : c < fat32Bad := lt_of_lt_of_le hc.2 g.limit_le

theorem Geometry.valid_lt_two_pow (hc : p.Valid c) : c < 2 ^ 28 :=
  lt_trans (g.valid_lt hc) (by decide)

theorem Geometry.valid_not_end (hc : p.Valid c) : ¬ fat32Eoc ≤ c := by
  have hlt := g.valid_lt hc
  have hbad : fat32Bad < fat32Eoc := by decide
  omega

/-- A walk goes on at a cluster of the volume. -/
theorem Geometry.valid_goes_on (hc : p.Valid c) : ¬ (c < 2 ∨ fat32Bad ≤ c) :=
  not_or.mpr ⟨not_lt.mpr hc.1, not_le.mpr (g.valid_lt hc)⟩

/-! ### Walking along a chain -/

variable {Q : List ℕ → Vol p.bytesPerCluster → Prop}

theorem leaves_clusterChainFrom (n : ℕ) (h : Chain p v.fat first cs) (hR : n < cs.length → S v)
    (hQ : cs.length ≤ n → Q cs v) : Leaves p (clusterChainFrom n first) v S Q := by
  induction h generalizing n Q with have hgo := g.valid_goes_on hc
  | @last c hc hstop =>
    cases n with
    | zero =>
      rw [clusterChainFrom, if_neg hgo]
      exact hR zero_lt_one
    | succ n =>
      rw [clusterChainFrom, if_neg hgo, leaves_bind]
      refine leaves_fatEntry hc ?_
      rw [if_pos hstop]
      exact hQ (succ_le_succ (zero_le n))
  | @link c cs hc hstop h ih =>
    cases n with
    | zero =>
      rw [clusterChainFrom, if_neg hgo]
      exact hR (succ_pos _)
    | succ n =>
      rw [clusterChainFrom, if_neg hgo, leaves_bind]
      refine leaves_fatEntry hc ?_
      rw [if_neg hstop, leaves_bind]
      exact ih n (fun hlt => hR (succ_lt_succ hlt)) fun hle => hQ (succ_le_succ hle)

theorem leaves_clusterChain (h : Clusters p v.fat first cs) (hR : maxChain < cs.length → S v)
    (hQ : cs.length ≤ maxChain → Q cs v) : Leaves p (clusterChain first) v S Q := by
  rcases h.cases with h | ⟨hfirst, rfl⟩
  · exact leaves_clusterChainFrom g maxChain h hR hQ
  · have hend : clusterChainFrom maxChain first = pure [] := by
      show clusterChainFrom (999999 + 1) first = _
      rw [clusterChainFrom, if_pos (.inl hfirst)]
    rw [clusterChain, hend]
    exact hQ (zero_le _)

omit g in
theorem leaves_freeClusters {Q : Unit → Vol p.bytesPerCluster → Prop}
    (hcs : ∀ c ∈ cs, p.Valid c) (hQ : Q () (v.freeAll cs)) : Leaves p (freeClusters cs) v S Q := by
  induction cs generalizing v with
  | nil =>
    exact hQ
  | cons c cs ih =>
    rw [freeClusters, leaves_bind]
    refine leaves_setFatEntry (hcs c mem_cons_self) (by decide) ?_
    refine ih (forall_mem_cons.mp hcs).2 ?_
    have hfree : (v.setFat c fat32Free).freeAll cs = v.freeAll (c :: cs) := by
      refine Vol.ext ?_ rfl
      funext c'
      show (if c' ∈ cs then _ else Function.update v.fat c fat32Free c') = if c' ∈ c :: cs then _ else _
      obtain rfl | heq := eq_or_ne c' c
      · rw [Function.update_self, ite_self, if_pos mem_cons_self]
      · simp only [Function.update_of_ne heq, mem_cons, heq, false_or]
    rw [hfree]
    exact hQ

theorem leaves_freeChainOf {Q : Unit → Vol p.bytesPerCluster → Prop}
    (h : Clusters p v.fat first cs) (hR : maxChain < cs.length → S v)
    (hQ : cs.length ≤ maxChain → Q () (v.freeAll cs)) : Leaves p (freeChainOf first) v S Q := by
  rw [freeChainOf]
  split_ifs with hfirst
  · rw [freeChain, leaves_bind]
    refine leaves_clusterChain g h hR fun hlen => ?_
    exact leaves_freeClusters (fun c hc => h.valid hc) (hQ hlen)
  · rw [h.eq_nil (not_le.mp hfirst)] at hQ
    exact hQ (zero_le _)

/-! ### Reading -/

omit g in
theorem does_readClusters {Q : Bytes → Vol p.bytesPerCluster → Prop} {size : ℕ} {out : Bytes}
    (hcs : ∀ c ∈ cs, p.Valid c) (hout : out.length ≤ size)
    (hQ : Q ((out ++ v.contents cs).take size) v) :
    Does p (readClusters p.bytesPerCluster size cs out) v R
      fun r v' => Q (r.take size) v' := by
  induction cs generalizing out with
  | nil =>
    rw [Vol.contents, flatMap_nil, append_nil] at hQ
    exact hQ
  | cons c cs ih =>
    rw [readClusters]
    split_ifs with hfull
    · rw [does_pure, take_of_length_le hout]
      rwa [take_append_of_le_length hfull, take_of_length_le hout] at hQ
    rw [does_bind]
    refine leaves_readCluster (hcs c mem_cons_self) ?_
    refine ih (forall_mem_cons.mp hcs).2 ?_ ?_
    · rw [length_append, length_take]
      omega
    · -- a cut in the middle of a cluster is the last one
      have hlen : (v.data c).1.length = p.bytesPerCluster := (v.data c).2
      rw [Vol.contents, flatMap_cons] at hQ
      rcases le_total p.bytesPerCluster (size - out.length) with hle | hle
      · rwa [min_eq_right hle, take_of_length_le (le_of_eq hlen), append_assoc]
      rw [min_eq_left hle]
      rw [take_append, take_append_of_le_length (by omega)] at hQ
      rw [append_assoc, take_append, take_append_of_le_length (by
        rw [length_take]
        omega), take_take, min_self]
      exact hQ

/-- **Reading a file gives the first bytes of its clusters.** -/
theorem does_readFile {Q : Bytes → Vol p.bytesPerCluster → Prop} (size : ℕ)
    (h : Clusters p v.fat first cs) (hR : maxChain < cs.length → R)
    (hQ : cs.length ≤ maxChain → Q ((v.contents cs).take size) v) :
    Does p (readFile p first size) v R Q := by
  rw [readFile, does_bind]
  refine leaves_clusterChain g h hR fun hlen => ?_
  rw [does_bind]
  exact does_readClusters (fun c hc => h.valid hc) (zero_le _) (hQ hlen)

/-- **A file of at most a million clusters is read.** -/
theorem readFile_ok_iff {d : Disk} (hsize : p.totalSectors ≤ d.size) {size : ℕ} {bytes : Bytes}
    (h : Clusters p (view p d).fat first cs) :
    ((readFile p first size).run (onDisk p) d).1 = .ok bytes ↔
      cs.length ≤ maxChain ∧ bytes = ((view p d).contents cs).take size :=
  Does.ok_iff g hsize
    (does_readFile g size h not_le.mpr fun hlen => ⟨hlen, rfl⟩)

end Specs

end Maios.Fat32
