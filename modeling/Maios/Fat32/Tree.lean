import Maios.Fat32.Edit

/-!
# The directory tree

The directories of a volume are the root and, as far as one gets from it, what the directories show as
directories. A chain of clusters is owned by the root or by an entry, which is known by its directory
and its slot.

There are two conditions on a volume. It is *consistent* if the chains of its owners exist and
different owners have no cluster in common. That is what keeps a change of one file away from the
others. It is *well-formed* if, in addition, every cluster that is not free belongs to an owner. That
is a statement about space only, and it is the stronger contract: a volume with a mark for a bad
cluster is consistent and not well-formed.

## Main results

* `EditAt.chain_of_owns`: an edit of one slot leaves the chains of the other owners as they are.
* `EditAt.consistent`, `EditAt.wellFormed`: an edit that replaces the entry of one slot keeps a volume
  consistent, and well-formed, if the clusters it frees are those of the old entry, the clusters it
  takes are those of the new one, and neither of the two is a directory with files of its own.
-/

namespace Maios.Fat32

open Thread

variable {p : Fat32Params}

/-- The directory shows the entry at a slot. -/
def Lists (p : Fat32Params) (v : Vol p.bytesPerCluster) (d k : ℕ) (e : DirEntry83) : Prop :=
  ∃ ds n, Chain p v.fat d ds ∧ shownAt (v.slots ds) k = some (n, e)

/-- The directories, by their first clusters. -/
inductive IsDir (p : Fat32Params) (v : Vol p.bytesPerCluster) : ℕ → Prop
  | root : IsDir p v p.rootCluster
  | sub {d k : ℕ} {e : DirEntry83} (hd : IsDir p v d) (he : Lists p v d k e) (hdir : e.isDir = true)
      (hcluster : 2 ≤ e.cluster) : IsDir p v e.cluster

/-- What owns a chain: nothing but the volume, for the root, or an entry by its directory and slot. -/
abbrev Owner := Option (ℕ × ℕ)

/-- The chains with their owners. -/
inductive Owns (p : Fat32Params) (v : Vol p.bytesPerCluster) : Owner → ℕ → Prop
  | root : Owns p v none p.rootCluster
  | entry {d k : ℕ} {e : DirEntry83} (hd : IsDir p v d) (he : Lists p v d k e)
      (hcluster : 2 ≤ e.cluster) : Owns p v (some (d, k)) e.cluster

/-- No entry of the directory has clusters. -/
def Hollow (p : Fat32Params) (v : Vol p.bytesPerCluster) (d : ℕ) : Prop :=
  ∀ k e, Lists p v d k e → e.cluster < 2

/-- The chains of the owners exist, and those of different owners have no cluster in common. Nothing is
said about clusters without an owner: they may be free, lost or marked as bad. -/
structure Consistent (p : Fat32Params) (v : Vol p.bytesPerCluster) : Prop where
  chain : ∀ o c, Owns p v o c → ∃ cs, Chain p v.fat c cs
  disjoint : ∀ o o' c c' cs cs', Owns p v o c → Owns p v o' c' → Chain p v.fat c cs →
    Chain p v.fat c' cs' → o ≠ o' → cs.Disjoint cs'

/-- The chains of the owners are also all that is not free. -/
structure WellFormed (p : Fat32Params) (v : Vol p.bytesPerCluster) : Prop
    extends Consistent p v where
  covered : ∀ x, p.Valid x → v.fat x ≠ fat32Free → ∃ o c cs, Owns p v o c ∧ Chain p v.fat c cs ∧ x ∈ cs

section Owners

variable {v : Vol p.bytesPerCluster} {d k c c' x : ℕ} {e e' : DirEntry83} {o o' : Owner}
  {cs cs' ds : List ℕ}

theorem lists_iff (h : Chain p v.fat d ds) :
    Lists p v d k e ↔ ∃ n, shownAt (v.slots ds) k = some (n, e) := by
  constructor
  · rintro ⟨ds', n, hds', hshown⟩
    obtain rfl := eq h hds'
    exact ⟨n, hshown⟩
  · rintro ⟨n, hshown⟩
    exact ⟨ds, n, h, hshown⟩

theorem Lists.of_findSlot {upper : Name → Name} {name : Name} (h : Chain p v.fat d ds)
    (hfind : findSlot upper name (v.slots ds) = some (k, e)) : Lists p v d k e :=
  (lists_iff h).mpr (shownAt_of_findSlot hfind)

theorem Lists.eq (h : Lists p v d k e) (h' : Lists p v d k e') : e = e' := by
  obtain ⟨ds, n, hds, hshown⟩ := h
  obtain ⟨n', hshown'⟩ := (lists_iff hds).mp h'
  exact snd_unique hshown hshown'

theorem hollow_of_lt (h : d < 2) : Hollow p v d := by
  rintro k e ⟨ds, n, hds, -⟩
  exact absurd hds.two_le (not_le.mpr h)

theorem Owns.eq (h : Owns p v o c) (h' : Owns p v o c') : c = c' := by
  rcases h with _ | ⟨_, he, _⟩
  · rcases h' with _ | _
    rfl
  · rcases h' with _ | ⟨_, he', _⟩
    rw [he.eq he']

theorem IsDir.owns (h : IsDir p v d) : ∃ o, Owns p v o d := by
  rcases h with _ | ⟨hd, he, _, hcluster⟩
  · exact ⟨none, .root⟩
  · exact ⟨_, .entry hd he hcluster⟩

namespace Consistent

variable (hcon : Consistent p v)

include hcon

/-- A cluster has one owner. -/
theorem owner_eq (h : Owns p v o c) (h' : Owns p v o' c') (hc : Chain p v.fat c cs)
    (hc' : Chain p v.fat c' cs') (hx : x ∈ cs) (hx' : x ∈ cs') : o = o' := by
  by_contra hne
  exact hcon.disjoint o o' c c' cs cs' h h' hc hc' hne hx hx'

theorem owner_unique (h : Owns p v o c) (h' : Owns p v o' c) : o = o' := by
  obtain ⟨cs, hcs⟩ := hcon.chain o c h
  exact hcon.owner_eq h h' hcs hcs hcs.head_mem hcs.head_mem

theorem chain_of_isDir (h : IsDir p v d) : ∃ ds, Chain p v.fat d ds := by
  obtain ⟨o, ho⟩ := h.owns
  exact hcon.chain o d ho

/-- No directory is an entry of itself. -/
theorem not_owns_self (h : IsDir p v d) (k : ℕ) : ¬ Owns p v (some (d, k)) d := by
  induction h generalizing k with
  | root => exact fun hself => (by cases hcon.owner_unique hself .root)
  | @sub d' k' e hd he hdir hcluster ih =>
    intro hself
    have heq : d' = e.cluster := by
      have := hcon.owner_unique hself (.entry hd he hcluster)
      exact (Prod.mk.inj (Option.some.inj this)).1.symm
    refine ih k' ?_
    nth_rewrite 2 [heq]
    exact .entry hd he hcluster

/-- A directory that is owned by an entry is shown as a directory there. -/
theorem isDir_of_owns (h : IsDir p v c) (ho : Owns p v (some (d, k)) c) :
    ∃ e, Lists p v d k e ∧ e.isDir = true ∧ e.cluster = c := by
  rcases h with _ | @⟨d', k', e, hd, he, hdir, hcluster⟩
  · cases hcon.owner_unique ho .root
  · obtain ⟨rfl, rfl⟩ := Prod.mk.inj (Option.some.inj (hcon.owner_unique ho (.entry hd he hcluster)))
    exact ⟨e, he, hdir, rfl⟩

/-- The clusters of an entry that a directory shows. -/
theorem clusters_of_lists (hd : IsDir p v d) (he : Lists p v d k e) :
    ∃ cs, Clusters p v.fat e.cluster cs := by
  rcases lt_or_ge e.cluster 2 with hlt | hge
  · exact ⟨[], .of_lt hlt⟩
  · obtain ⟨cs, hcs⟩ := hcon.chain _ _ (.entry hd he hge)
    exact ⟨cs, .of_chain hcs⟩

/-- The clusters of an entry are not those of its directory. -/
theorem not_mem_of_lists (hd : IsDir p v d) (hds : Chain p v.fat d ds) (he : Lists p v d k e)
    (hcs : Clusters p v.fat e.cluster cs) (hx : x ∈ cs) : x ∉ ds := by
  intro hx'
  rcases hcs.cases with hchain | ⟨-, rfl⟩
  · obtain ⟨o, ho⟩ := hd.owns
    have howner := hcon.owner_eq (.entry hd he hchain.two_le) ho hchain hds hx hx'
    rw [← howner] at ho
    exact hcon.not_owns_self hd k ho
  · exact List.not_mem_nil hx

end Consistent

variable (hroot : Chain p v.fat p.rootCluster ds)

include hroot

/-- A volume on which one file in the root directory has clusters, and they are not those of the root.
There may be marks for bad clusters on it. -/
theorem consistent_of_file (k₀ : ℕ) (e₀ : DirEntry83)
    (hshown : ∀ k n e, shownAt (v.slots ds) k = some (n, e) → e.cluster < 2 ∨ k = k₀ ∧ e = e₀)
    (hfile : e₀.isDir = false) (hcs : Chain p v.fat e₀.cluster cs) (hdisj : ds.Disjoint cs) :
    Consistent p v := by
  have hlists : ∀ {k e}, Lists p v p.rootCluster k e → 2 ≤ e.cluster → k = k₀ ∧ e = e₀ := by
    intro k e he hcluster
    obtain ⟨n, hat⟩ := (lists_iff hroot).mp he
    exact (hshown k n e hat).resolve_left (not_lt.mpr hcluster)
  have hisDir : ∀ {d}, IsDir p v d → d = p.rootCluster := by
    intro d hd
    induction hd with
    | root => rfl
    | sub _ he hdir hcluster ih =>
      subst ih
      rw [(hlists he hcluster).2, hfile] at hdir
      cases hdir
  have howns : ∀ {o c}, Owns p v o c →
      o = none ∧ c = p.rootCluster ∨ o = some (p.rootCluster, k₀) ∧ c = e₀.cluster := by
    rintro o c (_ | ⟨hd, he, hcluster⟩)
    · exact .inl ⟨rfl, rfl⟩
    · obtain rfl := hisDir hd
      obtain ⟨rfl, rfl⟩ := hlists he hcluster
      exact .inr ⟨rfl, rfl⟩
  constructor
  · intro o c ho
    rcases howns ho with ⟨-, rfl⟩ | ⟨-, rfl⟩
    · exact ⟨ds, hroot⟩
    · exact ⟨cs, hcs⟩
  · intro o o' c c' es es' ho ho' hes hes' hne
    rcases howns ho with ⟨rfl, rfl⟩ | ⟨rfl, rfl⟩ <;> rcases howns ho' with ⟨rfl, rfl⟩ | ⟨rfl, rfl⟩
    · exact absurd rfl hne
    · rwa [eq hes hroot, eq hes' hcs]
    · rw [eq hes hcs, eq hes' hroot]
      exact fun x hx hx' => hdisj hx' hx
    · exact absurd rfl hne

variable (hhollow : ∀ ne ∈ scan [] (v.slots ds), ne.2.cluster < 2)

include hhollow

/-- If no entry of the root directory has clusters, then only the root owns some. -/
theorem owns_of_root (ho : Owns p v o c) : o = none ∧ c = p.rootCluster := by
  have hlists : ∀ {k e}, Lists p v p.rootCluster k e → e.cluster < 2 := by
    intro k e he
    obtain ⟨n, hshown⟩ := (lists_iff hroot).mp he
    exact hhollow (n, e) (mem_scan_of_shownFrom hshown)
  have hisDir : ∀ {d}, IsDir p v d → d = p.rootCluster := by
    intro d hd
    induction hd with
    | root => rfl
    | sub _ he _ hcluster ih =>
      subst ih
      exact absurd (hlists he) (not_lt.mpr hcluster)
  rcases ho with _ | ⟨hd, he, hcluster⟩
  · exact ⟨rfl, rfl⟩
  · obtain rfl := hisDir hd
    exact absurd (hlists he) (not_lt.mpr hcluster)

/-- A volume whose root directory is all there is. -/
theorem wellFormed_of_root (hfree : ∀ x, p.Valid x → x ∉ ds → v.fat x = fat32Free) :
    WellFormed p v := by
  have howns : ∀ {o c}, Owns p v o c → o = none ∧ c = p.rootCluster := owns_of_root hroot hhollow
  refine ⟨⟨fun o c ho => ⟨ds, (howns ho).2 ▸ hroot⟩, fun o o' c c' cs cs' ho ho' _ _ hne => ?_⟩, ?_⟩
  · exact absurd ((howns ho).1.trans (howns ho').1.symm) hne
  · intro x hx hnot
    refine ⟨none, _, ds, .root, hroot, ?_⟩
    by_contra hmem
    exact hnot (hfree x hx hmem)

/-- A cluster that is in use although the root directory is all there is. -/
theorem not_wellFormed_of_root (hx : p.Valid x) (hmem : x ∉ ds) (hused : v.fat x ≠ fat32Free) :
    ¬ WellFormed p v := by
  intro hwf
  obtain ⟨o, c, cs, ho, hcs, hxcs⟩ := hwf.covered x hx hused
  obtain ⟨-, rfl⟩ := owns_of_root hroot hhollow ho
  rw [eq hcs hroot] at hxcs
  exact hmem hxcs

end Owners

/-! ### Edits of a well-formed volume -/

/-- An edit that replaces the entry of the slot `k`. The other slots show what they showed. The
clusters that are freed are those of the old entry, the clusters that are taken are those of the new
one, and a directory is only replaced, or new, if no entry of it has clusters. -/
structure EditAt (p : Fat32Params) (v v' : Vol p.bytesPerCluster) (dir : ℕ)
    (ds ext olds news : List ℕ) (first k : ℕ) (slots : List Bytes) : Prop where
  edit : Edit p v v' dir ds ext olds news first slots
  isDir : IsDir p v dir
  chain : Chain p v.fat dir ds
  other : ∀ k' ≠ k, shownAt slots k' = shownAt (v.slots ds) k'
  old : ∀ n e, shownAt (v.slots ds) k = some (n, e) →
    Clusters p v.fat e.cluster olds ∧ (e.isDir = true → Hollow p v e.cluster)
  old_none : shownAt (v.slots ds) k = none → olds = []

/-- What an edit puts in the slot owns the clusters that were taken. -/
structure Settles (p : Fat32Params) (v' : Vol p.bytesPerCluster) (news : List ℕ) (first k : ℕ)
    (slots : List Bytes) : Prop where
  new : ∀ n e, shownAt slots k = some (n, e) →
    e.cluster = first ∧ (e.isDir = true → Hollow p v' e.cluster)
  new_none : shownAt slots k = none → news = []

namespace EditAt

variable {v v' : Vol p.bytesPerCluster} {dir first k : ℕ} {ds ext olds news : List ℕ}
  {slots : List Bytes} {d k' c x : ℕ} {e : DirEntry83} {o : Owner} {cs : List ℕ}
  (hcon : Consistent p v) (h : EditAt p v v' dir ds ext olds news first k slots)

include hcon h

/-- The clusters of the other owners are neither freed nor taken, and only one owner has those of the
directory. -/
theorem not_mem_of_owns (ho : Owns p v o c) (hne : o ≠ some (dir, k)) (hcs : Chain p v.fat c cs)
    (hx : x ∈ cs) : x ∉ olds ∧ x ∉ ext ∧ x ∉ news ∧ (c ≠ dir → x ∉ ds) := by
  have hold : x ∉ olds := by
    intro hmem
    rcases hshown : shownAt (v.slots ds) k with _ | ⟨n, e⟩
    · rw [h.old_none hshown] at hmem
      exact List.not_mem_nil hmem
    · rcases (h.old n e hshown).1.cases with holds | ⟨-, rfl⟩
      · have hlists : Lists p v dir k e := (lists_iff h.chain).mpr ⟨n, hshown⟩
        exact hne (hcon.owner_eq ho (.entry h.isDir hlists holds.two_le) hcs holds hx hmem)
      · exact List.not_mem_nil hmem
  have hfresh : ¬ (x ∈ ext ∨ x ∈ news) := by
    intro hmem
    rcases (h.edit.fresh x hmem).2 with hfree | hmem'
    · exact hcs.not_free hx hfree
    · exact hold hmem'
  refine ⟨hold, fun hmem => hfresh (.inl hmem), fun hmem => hfresh (.inr hmem), fun hc hmem => hc ?_⟩
  obtain ⟨o', ho'⟩ := h.isDir.owns
  obtain rfl := hcon.owner_eq ho ho' hcs h.chain hx hmem
  exact ho.eq ho'

/-- **The chains of the other owners stay as they are, with their data.** -/
theorem chain_of_owns (ho : Owns p v o c) (hne : o ≠ some (dir, k)) (hc : c ≠ dir)
    (hcs : Chain p v.fat c cs) : Chain p v'.fat c cs ∧ ∀ x ∈ cs, v'.data x = v.data x := by
  constructor
  · refine congr hcs fun x hx => ?_
    obtain ⟨hold, hext, hnew, hds⟩ := not_mem_of_owns hcon h ho hne hcs hx
    exact h.edit.fat x (hds hc) hext hnew hold
  · intro x hx
    obtain ⟨-, hext, hnew, hds⟩ := not_mem_of_owns hcon h ho hne hcs hx
    exact h.edit.data x (hds hc) hext hnew

/-- **The other directories show what they showed, and so do the other slots of the directory.** -/
theorem lists_iff (hd : IsDir p v d) (hnot : ¬ Owns p v (some (dir, k)) d)
    (hslot : (d, k') ≠ (dir, k)) : Lists p v' d k' e ↔ Lists p v d k' e := by
  obtain rfl | hdir := eq_or_ne d dir
  · have hk : k' ≠ k := fun heq => hslot (by rw [heq])
    rw [lists_iff h.chain, lists_iff h.edit.chain, h.edit.slots, h.other k' hk]
  · obtain ⟨o, ho⟩ := hd.owns
    have hne : o ≠ some (dir, k) := fun heq => hnot (heq ▸ ho)
    obtain ⟨es, hes⟩ := hcon.chain o d ho
    obtain ⟨hes', hdata⟩ := chain_of_owns hcon h ho hne hdir hes
    rw [Fat32.lists_iff hes, Fat32.lists_iff hes', Vol.slots_congr hdata]

/-- What a directory shows it has shown before, or it is the new entry. -/
theorem lists_cases (hd : IsDir p v d) (hnot : ¬ Owns p v (some (dir, k)) d)
    (he : Lists p v' d k' e) : (d, k') ≠ (dir, k) ∧ Lists p v d k' e ∨
      (d, k') = (dir, k) ∧ ∃ n, shownAt slots k = some (n, e) := by
  by_cases hslot : (d, k') = (dir, k)
  · cases hslot
    rw [Fat32.lists_iff h.edit.chain, h.edit.slots] at he
    exact .inr ⟨rfl, he⟩
  · exact .inl ⟨hslot, (lists_iff hcon h hd hnot hslot).mp he⟩

theorem ne_of_owns_dir (ho : Owns p v o dir) : o ≠ some (dir, k) := by
  rintro rfl
  exact hcon.not_owns_self h.isDir k ho

/-- The old entry is no directory with files of its own. -/
theorem not_owns_of_lists (hd : IsDir p v d) (he : Lists p v d k' e) (hcluster : 2 ≤ e.cluster) :
    ¬ Owns p v (some (dir, k)) d := by
  intro hold
  obtain ⟨e₀, he₀, hdir₀, rfl⟩ := hcon.isDir_of_owns hd hold
  obtain ⟨n, hshown⟩ := (Fat32.lists_iff h.chain).mp he₀
  exact absurd ((h.old n e₀ hshown).2 hdir₀ k' e he) (not_lt.mpr hcluster)

theorem isDir_mono (hd : IsDir p v d) (hnot : ¬ Owns p v (some (dir, k)) d) : IsDir p v' d := by
  induction hd with
  | root => exact .root
  | @sub d' k' e hd he hdir hcluster ih =>
    have hnot' := not_owns_of_lists hcon h hd he hcluster
    have hslot : (d', k') ≠ (dir, k) := by
      rintro ⟨⟩
      exact hnot (.entry hd he hcluster)
    exact .sub (ih hnot') ((lists_iff hcon h hd hnot' hslot).mpr he) hdir hcluster

/-- The other owners keep their chains. -/
theorem owns_mono (ho : Owns p v o c) (hne : o ≠ some (dir, k)) : Owns p v' o c := by
  rcases ho with _ | @⟨d, k', e, hd, he, hcluster⟩
  · exact .root
  · have hnot := not_owns_of_lists hcon h hd he hcluster
    have hslot : (d, k') ≠ (dir, k) := fun heq => hne (congrArg some heq)
    exact .entry (isDir_mono hcon h hd hnot) ((lists_iff hcon h hd hnot hslot).mpr he) hcluster

variable (hs : Settles p v' news first k slots)

include hs

/-- A directory of the new volume is one of the old volume, or the new entry. -/
theorem isDir_cases (hd : IsDir p v' d) :
    IsDir p v d ∧ ¬ Owns p v (some (dir, k)) d ∨
      ∃ n e, shownAt slots k = some (n, e) ∧ e.isDir = true ∧ e.cluster = d := by
  induction hd with
  | root =>
    refine .inl ⟨.root, fun ho => ?_⟩
    cases hcon.owner_unique ho .root
  | @sub d k' e hd he hdir hcluster ih =>
    rcases ih with ⟨hd', hnot⟩ | ⟨n, e₁, hshown, hdir₁, rfl⟩
    · rcases lists_cases hcon h hd' hnot he with ⟨hslot, he'⟩ | ⟨-, n, hshown⟩
      · refine .inl ⟨.sub hd' he' hdir hcluster, fun hold => hslot ?_⟩
        exact Option.some.inj (hcon.owner_unique (.entry hd' he' hcluster) hold)
      · exact .inr ⟨n, e, hshown, hdir, rfl⟩
    · exact absurd ((hs.new n e₁ hshown).2 hdir₁ k' e he) (not_lt.mpr hcluster)

/-- An owner in the new volume is one of the old volume, or the new entry. -/
theorem owns_cases (ho : Owns p v' o c) :
    o ≠ some (dir, k) ∧ Owns p v o c ∨ o = some (dir, k) ∧ c = first ∧ 2 ≤ first := by
  rcases ho with _ | @⟨d, k', e, hd, he, hcluster⟩
  · exact .inl ⟨fun heq => (by cases heq), .root⟩
  rcases isDir_cases hcon h hs hd with ⟨hd', hnot⟩ | ⟨n, e₁, hshown, hdir₁, rfl⟩
  · rcases lists_cases hcon h hd' hnot he with ⟨hslot, he'⟩ | ⟨hslot, n, hshown⟩
    · exact .inl ⟨fun heq => hslot (Option.some.inj heq), .entry hd' he' hcluster⟩
    · have hfirst := (hs.new n e hshown).1
      exact .inr ⟨congrArg some hslot, hfirst, hfirst ▸ hcluster⟩
  · exact absurd ((hs.new n e₁ hshown).2 hdir₁ k' e he) (not_lt.mpr hcluster)

/-- The chain of an owner in the new volume: that of the old volume, with what the directory took, or
that of the new entry. -/
theorem chain_cases (ho : Owns p v' o c) :
    (o ≠ some (dir, k) ∧ Owns p v o c ∧ ∃ cs cs', Chain p v.fat c cs ∧ Chain p v'.fat c cs' ∧
      ∀ x ∈ cs', x ∈ cs ∨ c = dir ∧ x ∈ ext) ∨
    o = some (dir, k) ∧ Chain p v'.fat c news := by
  rcases owns_cases hcon h hs ho with ⟨hne, ho'⟩ | ⟨rfl, rfl, hge⟩
  · obtain ⟨cs, hcs⟩ := hcon.chain o c ho'
    obtain rfl | hc := eq_or_ne c dir
    · obtain rfl := eq hcs h.chain
      refine .inl ⟨hne, ho', cs, cs ++ ext, hcs, h.edit.chain, fun x hx => ?_⟩
      exact (List.mem_append.mp hx).imp_right fun hmem => ⟨rfl, hmem⟩
    · exact .inl ⟨hne, ho', cs, cs, hcs, (chain_of_owns hcon h ho' hne hc hcs).1,
        fun x hx => .inl hx⟩
  · exact .inr ⟨rfl, h.edit.clusters.chain hge⟩

theorem disjoint {o' : Owner} {c' : ℕ} {cs' : List ℕ} (ho : Owns p v' o c) (ho' : Owns p v' o' c')
    (hcs : Chain p v'.fat c cs) (hcs' : Chain p v'.fat c' cs') (hne : o ≠ o') :
    cs.Disjoint cs' := by
  intro x hx hx'
  -- the clusters of an old owner are not in the new chain, nor among those the directory takes
  rcases chain_cases hcon h hs ho with ⟨hne₁, ho₁, cs₁, cs₁', hcs₁, hcs₁', hsub₁⟩ | ⟨rfl, hnew⟩
  · obtain rfl := eq hcs hcs₁'
    rcases chain_cases hcon h hs ho' with ⟨hne₂, ho₂, cs₂, cs₂', hcs₂, hcs₂', hsub₂⟩ | ⟨rfl, hnew'⟩
    · obtain rfl := eq hcs' hcs₂'
      rcases hsub₁ x hx with hx₁ | ⟨rfl, hx₁⟩
      · rcases hsub₂ x hx' with hx₂ | ⟨rfl, hx₂⟩
        · exact hne (hcon.owner_eq ho₁ ho₂ hcs₁ hcs₂ hx₁ hx₂)
        · exact (not_mem_of_owns hcon h ho₁ hne₁ hcs₁ hx₁).2.1 hx₂
      · rcases hsub₂ x hx' with hx₂ | ⟨rfl, hx₂⟩
        · exact (not_mem_of_owns hcon h ho₂ hne₂ hcs₂ hx₂).2.1 hx₁
        · exact hne (hcon.owner_unique ho₁ ho₂)
    · obtain rfl := eq hcs' hnew'
      rcases hsub₁ x hx with hx₁ | ⟨-, hx₁⟩
      · exact (not_mem_of_owns hcon h ho₁ hne₁ hcs₁ hx₁).2.2.1 hx'
      · exact h.edit.apart x hx₁ hx'
  · obtain rfl := eq hcs hnew
    rcases chain_cases hcon h hs ho' with ⟨hne₂, ho₂, cs₂, cs₂', hcs₂, hcs₂', hsub₂⟩ | ⟨rfl, -⟩
    · obtain rfl := eq hcs' hcs₂'
      rcases hsub₂ x hx' with hx₂ | ⟨-, hx₂⟩
      · exact (not_mem_of_owns hcon h ho₂ hne₂ hcs₂ hx₂).2.2.1 hx
      · exact h.edit.apart x hx₂ hx
    · exact hne rfl

/-- The new entry owns the clusters that were taken. -/
theorem owns_new (hx : x ∈ news) : Owns p v' (some (dir, k)) first ∧ Chain p v'.fat first news := by
  rcases h.edit.clusters.cases with hchain | ⟨-, rfl⟩
  · have hge := hchain.two_le
    rcases hshown : shownAt slots k with _ | ⟨n, e⟩
    · rw [hs.new_none hshown] at hx
      exact absurd hx List.not_mem_nil
    have hfirst := (hs.new n e hshown).1
    have hlists : Lists p v' dir k e := by
      rw [Fat32.lists_iff h.edit.chain, h.edit.slots]
      exact ⟨n, hshown⟩
    have hdir : IsDir p v' dir := isDir_mono hcon h h.isDir (hcon.not_owns_self h.isDir k)
    rw [← hfirst] at hge hchain ⊢
    exact ⟨.entry hdir hlists hge, hchain⟩
  · exact absurd hx List.not_mem_nil

/-- **An edit keeps a volume consistent.** -/
theorem consistent : Consistent p v' where
  chain o c ho := by
    rcases chain_cases hcon h hs ho with ⟨-, -, -, cs', -, hcs', -⟩ | ⟨-, hcs'⟩
    · exact ⟨cs', hcs'⟩
    · exact ⟨news, hcs'⟩
  disjoint o o' c c' cs cs' ho ho' hcs hcs' hne := disjoint hcon h hs ho ho' hcs hcs' hne

theorem covered (hcov : ∀ x, p.Valid x → v.fat x ≠ fat32Free →
      ∃ o c cs, Owns p v o c ∧ Chain p v.fat c cs ∧ x ∈ cs)
    (hx : p.Valid x) (hfat : v'.fat x ≠ fat32Free) :
    ∃ o c cs, Owns p v' o c ∧ Chain p v'.fat c cs ∧ x ∈ cs := by
  by_cases hdir : x ∈ ds ++ ext
  · obtain ⟨o, ho⟩ := h.isDir.owns
    exact ⟨o, dir, ds ++ ext, owns_mono hcon h ho (ne_of_owns_dir hcon h ho), h.edit.chain, hdir⟩
  rw [List.mem_append, not_or] at hdir
  by_cases hnew : x ∈ news
  · obtain ⟨ho, hchain⟩ := owns_new hcon h hs hnew
    exact ⟨_, first, news, ho, hchain, hnew⟩
  by_cases hold : x ∈ olds
  · exact absurd (h.edit.freed x hold hdir.2 hnew) hfat
  rw [h.edit.fat x hdir.1 hdir.2 hnew hold] at hfat
  obtain ⟨o, c, cs, ho, hcs, hmem⟩ := hcov x hx hfat
  have hc : c ≠ dir := by
    rintro rfl
    exact hdir.1 (eq hcs h.chain ▸ hmem)
  have hne : o ≠ some (dir, k) := by
    rintro rfl
    rcases ho with _ | ⟨_, he, hge⟩
    obtain ⟨n, hshown⟩ := (Fat32.lists_iff h.chain).mp he
    exact hold ((h.old n _ hshown).1.eq (.of_chain hcs) ▸ hmem)
  exact ⟨o, c, cs, owns_mono hcon h ho hne, (chain_of_owns hcon h ho hne hc hcs).1, hmem⟩

omit hcon in
/-- **An edit keeps a volume well-formed.** -/
theorem wellFormed (hwf : WellFormed p v) : WellFormed p v' where
  toConsistent := consistent hwf.toConsistent h hs
  covered _ hx hfat := covered hwf.toConsistent h hs hwf.covered hx hfat

end EditAt

end Maios.Fat32
