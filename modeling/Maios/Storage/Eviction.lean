import Maios.Storage.BlockCacheRefinement

/-!
# What the block cache drops

A cache that is full drops an entry before it takes a new one, so that it never holds more entries
than its capacity. `evict_one` is documented to drop an invalid entry if there is one, else the
shared entry that was accessed least recently, and a modified entry only after its data is on the
device. It looks for the smallest access tick among all entries that are not modified. An entry that
became invalid keeps its tick, so it is dropped first only if it was accessed before all shared ones.

To say what was accessed when, the cache is run beside a clock that counts the calls of `read_block`
and `write_block`, and a record of the last successful one for each block. The ticks of the entries
are this record, until the 64-bit counter of the cache wraps around.

## Main results

* `Tracked.tracks_step` — the ticks stay the record of accesses
* `length_le_and_evicts_in_order_iff` — the bound, and when the documented order is kept
-/

namespace Maios.Storage

open OrdMap BlockCache Act

variable {block : ℕ} {ok : Prop}

namespace BlockCache

variable {bs : ℕ}

/-- `flush_and_clear` -/
def flushAndClear (iter : IterOrder (Entry bs)) : CacheM bs Unit := do
  flush iter none
  fun c => (.ok (), { c with cache := .empty })

/-! ### Operations that access no block -/

/-- Entries were dropped or changed, but none is new and none was accessed. -/
structure Kept (c c' : BlockCache bs) : Prop where
  entries : ∀ b cb', c'.cache.find? b = some cb' →
    ∃ cb, c.cache.find? b = some cb ∧ cb.lruTick = cb'.lruTick
  tick : c'.tick = c.tick
  capacity : c'.capacity = c.capacity

variable {c c' c'' : BlockCache bs} {cb : CachedBlock bs}

theorem Kept.of_eq (hcache : c'.cache = c.cache) (htick : c'.tick = c.tick)
    (hcapacity : c'.capacity = c.capacity) : Kept c c' :=
  ⟨fun _ cb' h => ⟨cb', hcache ▸ h, rfl⟩, htick, hcapacity⟩

theorem Kept.refl (c : BlockCache bs) : Kept c c := .of_eq rfl rfl rfl

theorem Kept.trans (h : Kept c c') (h' : Kept c' c'') : Kept c c'' := by
  refine ⟨fun b cb'' hb => ?_, h'.tick.trans h.tick, h'.capacity.trans h.capacity⟩
  obtain ⟨cb', hb', htick'⟩ := h'.entries b cb'' hb
  obtain ⟨cb, hb, htick⟩ := h.entries b cb' hb'
  exact ⟨cb, hb, htick.trans htick'⟩

theorem Kept.length_le (h : Kept c c') : c'.cache.entries.length ≤ c.cache.entries.length := by
  refine length_le_of_keys fun e he => ?_
  obtain ⟨cb, hcb, -⟩ := h.entries e.1 e.2 (find?_eq_some.mpr he)
  exact ⟨(e.1, cb), find?_eq_some.mp hcb, rfl⟩

/-- Replacing an entry by one with the same tick. -/
theorem Kept.insert {cb' : CachedBlock bs} (hcb : c.cache.find? block = some cb)
    (hcache : c'.cache = c.cache.insert block cb') (hsame : cb.lruTick = cb'.lruTick)
    (htick : c'.tick = c.tick) (hcapacity : c'.capacity = c.capacity) : Kept c c' := by
  refine ⟨fun b cb'' hb => ?_, htick, hcapacity⟩
  rw [hcache] at hb
  obtain rfl | hbb := eq_or_ne b block
  · rw [find?_insert_self] at hb
    cases hb
    exact ⟨cb, hcb, hsame⟩
  · rw [find?_insert_of_ne _ _ hbb] at hb
    exact ⟨cb'', hb, rfl⟩

section Kept

variable (iter : IterOrder (Entry bs)) (c : BlockCache bs)

theorem kept_writeBack {c : BlockCache bs} {block : ℕ} (hcb : c.cache.find? block = some cb)
    (msg : String) : Kept c (writeBack block cb msg c).2 := by
  rcases writeBack_cases c block cb msg with ⟨d, n, heq, -⟩ | ⟨d, heq, -⟩ <;> rw [heq]
  · exact .insert hcb rfl rfl rfl rfl
  · exact .of_eq rfl rfl rfl

theorem kept_flushLoop (dirty : List ℕ) : Kept c (flushLoop dirty c).2 := by
  induction dirty generalizing c with
  | nil => exact .refl c
  | cons block dirty ih =>
    rw [flushLoop, bind_of_ok _ (get_apply c)]
    cases hcb : c.cache.find? block with
    | none => exact .refl c
    | some cb =>
      have hwrite := kept_writeBack hcb "BlockCache::flush_all: device write error"
      refine bind_state _ hwrite fun _ c₁ hc₁ => ?_
      rw [hc₁] at hwrite
      exact hwrite.trans (ih c₁)

theorem kept_flush (block : Option ℕ) : Kept c (flush iter block c).2 := by
  cases block with
  | none =>
    exact kept_flushLoop c _
  | some block => ?_
  rw [flush, bind_of_ok _ (get_apply c)]
  cases hcb : c.cache.find? block with
  | none => exact .refl c
  | some cb =>
    dsimp only
    split_ifs
    · exact kept_writeBack hcb _
    · exact .refl c

variable (block : ℕ)

theorem kept_evict : Kept c (evict block c).2 :=
  ⟨fun _ cb' hb => ⟨cb', (find?_of_remove _ hb).2, rfl⟩, rfl, rfl⟩

theorem kept_evictOne : Kept c (evictOne iter c).2 := by
  rw [evictOne, bind_of_ok _ (get_apply c)]
  cases victim iter (fun cb => decide (cb.state ≠ .modified)) c with
  | some block => exact kept_evict c block
  | none => ?_
  refine bind_state _ (kept_flush iter c none) fun _ c₁ hc₁ => ?_
  have hflush := kept_flush iter c none
  rw [hc₁] at hflush
  rw [bind_of_ok _ (get_apply c₁)]
  cases victim iter (fun _ => true) c₁ with
  | some block => exact hflush.trans (kept_evict c₁ block)
  | none => exact hflush

theorem kept_makeRoom : Kept c (makeRoom iter block c).2 := by
  rw [makeRoom, bind_of_ok _ (get_apply c)]
  split_ifs
  · exact kept_evictOne iter c
  · exact .refl c

theorem kept_invalidate : Kept c (invalidate block c).2 := by
  rw [invalidate]
  cases hcb : c.cache.find? block with
  | none => exact .refl c
  | some cb => exact .insert hcb rfl rfl rfl rfl

theorem coherent_invalidate {c : BlockCache bs} (hc : Coherent c) (block : ℕ) :
    Coherent (invalidate block c).2 := by
  rw [invalidate]
  cases hcb : c.cache.find? block with
  | none => exact hc
  | some cb => ?_
  intro b cb' hb hs
  obtain rfl | hbb := eq_or_ne b block
  · obtain rfl := Option.some.inj ((find?_insert_self _ _ _).symm.trans hb)
    cases hs
  · exact hc b cb' ((find?_insert_of_ne _ _ hbb).symm.trans hb) hs

theorem kept_flushAndClear : Kept c (flushAndClear iter c).2 := by
  refine bind_state _ (kept_flush iter c none) fun _ c₁ hc₁ => ?_
  have hflush := kept_flush iter c none
  rw [hc₁] at hflush
  exact ⟨fun b cb' hb => (nomatch hb), hflush.tick, hflush.capacity⟩

end Kept

/-! ### Making room -/

section Room

variable {iter : IterOrder (Entry bs)} {c c' : BlockCache bs}

theorem length_evict_lt (h : c.cache.find? block = some cb) :
    (evict block c).2.cache.entries.length < c.cache.entries.length := by
  have hlength := length_remove c.cache block
  rw [h] at hlength
  exact lt_of_lt_of_eq (Nat.lt_succ_self _) hlength

/-- An eviction that succeeds on a cache with entries drops one. -/
theorem length_evictOne_lt (h : evictOne iter c = (.ok (), c')) (hne : c.cache.entries ≠ []) :
    c'.cache.entries.length < c.cache.entries.length := by
  rw [evictOne, bind_of_ok _ (get_apply c)] at h
  cases hvictim : victim iter (fun cb => decide (cb.state ≠ .modified)) c with
  | some block =>
    obtain ⟨cb, hcb, -⟩ := victim_spec iter hvictim
    rw [hvictim] at h
    obtain rfl := congrArg Prod.snd h
    exact length_evict_lt hcb
  | none => ?_
  rw [hvictim] at h
  dsimp only at h
  have hflush := kept_flush iter c none
  rcases hc₁ : flush iter none c with ⟨_ | _ | _, c₁⟩
  · rw [bind_of_ok _ hc₁, bind_of_ok _ (get_apply c₁)] at h
    rw [hc₁] at hflush
    cases hvictim' : victim iter (fun _ => true) c₁ with
    | some block =>
      obtain ⟨cb, hcb, -⟩ := victim_spec iter hvictim'
      rw [hvictim'] at h
      obtain rfl := congrArg Prod.snd h
      exact lt_of_lt_of_le (length_evict_lt hcb) hflush.length_le
    | none => ?_
    rw [hvictim'] at h
    obtain rfl := congrArg Prod.snd h
    -- nothing to drop: the cache is empty
    have hempty : c₁.cache.entries = [] := by
      have hperm := iter.perm c₁.cache.entries
      simp only [victim, Option.map_eq_none_iff, List.argmin_eq_none, List.filter_true] at hvictim'
      rw [hvictim'] at hperm
      exact hperm.nil_eq.symm
    show c₁.cache.entries.length < _
    rw [hempty]
    exact List.length_pos_iff.mpr hne
  · rw [bind_of_err _ hc₁] at h
    cases h
  · rw [bind_of_panic _ hc₁] at h
    cases h

/-- There is room for the block after room was made for it. -/
theorem length_insert_makeRoom (hcap : 1 ≤ c.capacity)
    (hlen : c.cache.entries.length ≤ c.capacity) (h : makeRoom iter block c = (.ok (), c'))
    (cb : CachedBlock bs) : (c'.cache.insert block cb).entries.length ≤ c.capacity := by
  rw [length_insert]
  rw [makeRoom, bind_of_ok _ (get_apply c)] at h
  split_ifs at h with hfull
  · have hne : c.cache.entries ≠ [] := fun hnil => by
      rw [hnil] at hfull
      exact absurd hfull.2 (not_le.mpr hcap)
    have hlt := length_evictOne_lt h hne
    split_ifs <;> omega
  obtain rfl := congrArg Prod.snd h
  show c.cache.entries.length + _ ≤ _
  split_ifs with hnone
  · have hlt : ¬ c.capacity ≤ c.cache.entries.length :=
      fun hle => hfull ⟨Option.isNone_iff_eq_none.mp hnone, hle⟩
    omega
  · exact hlen

end Room

/-! ### Reads and writes -/

/-- A call of `read_block` or `write_block`: the block is noted as accessed if it succeeds, and the
other entries are kept. -/
structure Accessed (block : ℕ) (ok : Prop) (c c' : BlockCache bs) : Prop where
  tick : c'.tick = wrap (c.tick + 1)
  capacity : c'.capacity = c.capacity
  entries : ∀ b cb', c'.cache.find? b = some cb' →
    ok ∧ b = block ∧ cb'.lruTick = wrap (c.tick + 1) ∨
      ¬ (ok ∧ b = block) ∧ ∃ cb, c.cache.find? b = some cb ∧ cb.lruTick = cb'.lruTick
  length : 1 ≤ c.capacity → c.cache.entries.length ≤ c.capacity →
    c'.cache.entries.length ≤ c.capacity

section Access

variable {iter : IterOrder (Entry bs)} {c : BlockCache bs} {block : ℕ}

/-- A call that fails. -/
theorem Accessed.of_kept (hok : ¬ ok) (h : Kept { c with tick := wrap (c.tick + 1) } c') :
    Accessed block ok c c' :=
  ⟨h.tick, h.capacity, fun b cb' hb => .inr ⟨fun hand => hok hand.1, h.entries b cb' hb⟩,
    fun _ hlen => h.length_le.trans hlen⟩

/-- A call that succeeds: the entry of the block is new or replaced. -/
theorem Accessed.of_insert (hok : ok)
    (h : ∀ b cb', b ≠ block → c'.cache.find? b = some cb' →
      ∃ cb, c.cache.find? b = some cb ∧ cb.lruTick = cb'.lruTick)
    (hlen : 1 ≤ c.capacity → c.cache.entries.length ≤ c.capacity →
      (c'.cache.insert block cb).entries.length ≤ c.capacity)
    (hcache : c''.cache = c'.cache.insert block cb) (hcb : cb.lruTick = wrap (c.tick + 1))
    (htick : c''.tick = wrap (c.tick + 1)) (hcapacity : c''.capacity = c.capacity) :
    Accessed block ok c c'' := by
  refine ⟨htick, hcapacity, fun b cb' hb => ?_, by rwa [hcache]⟩
  rw [hcache] at hb
  obtain rfl | hbb := eq_or_ne b block
  · rw [find?_insert_self] at hb
    cases hb
    exact .inl ⟨hok, rfl, hcb⟩
  · rw [find?_insert_of_ne _ _ hbb] at hb
    exact .inr ⟨fun hand => hbb hand.2, h b cb' hbb hb⟩

theorem accessed_writeBlock (iter : IterOrder (Entry bs)) (block : ℕ) (data : List UInt8) :
    Accessed block (∃ u, (writeBlock iter block data c).1 = .ok u) c
      (writeBlock iter block data c).2 := by
  have htick : nextTick c = (.ok (), { c with tick := wrap (c.tick + 1) }) := rfl
  rw [writeBlock, bind_of_ok _ htick, bind_of_ok _ (get_apply _)]
  cases Block.ofList bs data with
  | none => exact .of_kept (by simp) (.refl _)
  | some owned => ?_
  have hkept := kept_makeRoom iter { c with tick := wrap (c.tick + 1) } block
  refine bind_ends (P := fun r => Accessed block (∃ u, r.1 = .ok u) c r.2) _
    (fun o ho => .of_kept (fun hok => hok.elim ho) hkept) fun _ c₁ hroom => ?_
  rw [hroom] at hkept
  exact .of_insert ⟨_, rfl⟩ (fun b cb' _ hb => hkept.entries b cb' hb)
    (fun hcap hlen => length_insert_makeRoom (c := { c with tick := wrap (c.tick + 1) }) hcap hlen
      hroom _) rfl rfl hkept.tick hkept.capacity

/-- A block was made valid: its entry may be new, and the other entries are kept. -/
structure Loaded (block : ℕ) (ok : Prop) (c c' : BlockCache bs) : Prop where
  kept : ok ∨ Kept c c'
  tick : c'.tick = c.tick
  capacity : c'.capacity = c.capacity
  entries : ∀ b cb', b ≠ block → c'.cache.find? b = some cb' →
    ∃ cb, c.cache.find? b = some cb ∧ cb.lruTick = cb'.lruTick
  length : 1 ≤ c.capacity → c.cache.entries.length ≤ c.capacity →
    c'.cache.entries.length ≤ c.capacity

theorem Loaded.of_kept (h : Kept c c') : Loaded block ok c c' :=
  ⟨.inr h, h.tick, h.capacity, fun b cb' _ hb => h.entries b cb' hb,
    fun _ hlen => h.length_le.trans hlen⟩

theorem loaded_makeValid (iter : IterOrder (Entry bs)) (c : BlockCache bs) (block : ℕ) :
    Loaded block ((makeValid iter block c).1 = .ok ()) c (makeValid iter block c).2 := by
  rw [makeValid, bind_of_ok _ (get_apply c)]
  split_ifs with hvalid
  · refine .of_kept ?_
    exact .of_eq rfl rfl rfl
  have hroom := kept_makeRoom iter c block
  refine bind_ends (P := fun r => Loaded block (r.1 = .ok ()) c r.2) _
    (fun _ _ => .of_kept hroom) fun _ c₁ hc₁ => ?_
  rw [hc₁] at hroom
  rw [fetch]
  cases hread : (c₁.device.read block).1 with
  | none =>
    refine .of_kept (hroom.trans ?_)
    exact .of_eq rfl rfl rfl
  | some data =>
    refine ⟨.inl rfl, hroom.tick, hroom.capacity, fun b cb' hne hb => ?_, fun hcap hlen =>
      length_insert_makeRoom hcap hlen hc₁ _⟩
    exact hroom.entries b cb' ((find?_insert_of_ne _ _ hne).symm.trans hb)

theorem accessed_readBlock (iter : IterOrder (Entry bs)) (hc : Coherent c) (block : ℕ) :
    Accessed block (∃ data, (readBlock iter block c).1 = .ok data) c (readBlock iter block c).2 := by
  have htick : nextTick c = (.ok (), { c with tick := wrap (c.tick + 1) }) := rfl
  have hsame : Same c { c with tick := wrap (c.tick + 1) } := same_of_eq hc rfl rfl
  have hloaded := loaded_makeValid iter { c with tick := wrap (c.tick + 1) } block
  have hvalid := (@makeValid_spec _ iter _ hsame.coherent block).2
  rw [readBlock, bind_of_ok _ htick]
  rcases hc₁ : makeValid iter block { c with tick := wrap (c.tick + 1) } with ⟨_ | _ | _, c₁⟩ <;>
    rw [hc₁] at hloaded hvalid
  · -- the block is there, so it can be noted as accessed
    rw [bind_of_ok _ hc₁, touch]
    have hpresent := hvalid rfl
    rw [isValid] at hpresent
    cases hcb : c₁.cache.find? block with
    | none =>
      rw [hcb] at hpresent
      cases hpresent
    | some cb =>
      refine .of_insert ⟨_, rfl⟩ hloaded.entries (fun hcap hlen => ?_) rfl hloaded.tick hloaded.tick
        hloaded.capacity
      rw [length_insert, hcb]
      exact hloaded.length hcap hlen
  · rw [bind_of_err _ hc₁]
    exact .of_kept (by simp) (hloaded.kept.resolve_left (by simp))
  · rw [bind_of_panic _ hc₁]
    exact .of_kept (by simp) (hloaded.kept.resolve_left (by simp))

end Access

end BlockCache

/-! ### Runs -/

/-- A cache, beside the number of its reads and writes and the last successful one of each block. -/
structure Tracked (bs : ℕ) where
  cache : BlockCache bs
  time : ℕ
  last : ℕ → ℕ

/-- The calls of a cache. Reads and writes of several blocks are runs of reads and writes of one
(`Tracked.readBlocks_reaches`, `Tracked.writeBlocks_reaches`). -/
inductive CacheOp (bs : ℕ) where
  | readBlock (iter : IterOrder (BlockCache.Entry bs)) (block : ℕ)
  | writeBlock (iter : IterOrder (BlockCache.Entry bs)) (block : ℕ) (data : List UInt8)
  | invalidate (block : ℕ)
  | flush (iter : IterOrder (BlockCache.Entry bs)) (block : Option ℕ)
  | flushAndClear (iter : IterOrder (BlockCache.Entry bs))

namespace Tracked

variable {bs : ℕ}

def new (device : Device bs) (capacity : ℕ) : Tracked bs :=
  ⟨.withCapacity device capacity, 0, fun _ => 0⟩

/-- The state after a read or write of a block. -/
def access {α : Type} (s : Tracked bs) (block : ℕ) : Outcome String α × BlockCache bs → Tracked bs
  | (.ok _, c) => ⟨c, s.time + 1, Function.update s.last block (s.time + 1)⟩
  | (_, c) => ⟨c, s.time + 1, s.last⟩

def step (s : Tracked bs) : CacheOp bs → Tracked bs
  | .readBlock iter block => s.access block (BlockCache.readBlock iter block s.cache)
  | .writeBlock iter block data => s.access block (BlockCache.writeBlock iter block data s.cache)
  | .invalidate block => { s with cache := (BlockCache.invalidate block s.cache).2 }
  | .flush iter block => { s with cache := (BlockCache.flush iter block s.cache).2 }
  | .flushAndClear iter => { s with cache := (BlockCache.flushAndClear iter s.cache).2 }

@[simp] theorem access_cache {α : Type} (s : Tracked bs) (block : ℕ)
    (r : Outcome String α × BlockCache bs) : (s.access block r).cache = r.2 := by
  rcases r with ⟨_ | _ | _, c⟩ <;> rfl

/-- Some run of calls from `s` leaves the cache `c`. -/
def Reaches (s : Tracked bs) (c : BlockCache bs) : Prop :=
  ∃ ops, (run step s ops).cache = c

theorem Reaches.cons {s : Tracked bs} {op : CacheOp bs} {c : BlockCache bs}
    (h : (s.step op).Reaches c) : s.Reaches c := by
  obtain ⟨ops, hops⟩ := h
  exact ⟨op :: ops, hops⟩

theorem readBlocksLoop_reaches (iter : IterOrder (BlockCache.Entry bs)) (blockOffset n i : ℕ)
    (buffer : List UInt8) (s : Tracked bs) :
    s.Reaches (BlockCache.readBlocksLoop iter blockOffset n i buffer s.cache).2 := by
  induction n generalizing i buffer s with
  | zero => exact ⟨[], rfl⟩
  | succ n ih =>
    have hcache := access_cache s (wrap (blockOffset + i))
      (BlockCache.readBlock iter (wrap (blockOffset + i)) s.cache)
    rw [BlockCache.readBlocksLoop]
    refine bind_state (P := s.Reaches) _ ⟨[.readBlock iter _], hcache⟩ fun src c hread => ?_
    have hc : _ = c := congrArg Prod.snd hread
    obtain rfl := hcache.trans hc
    exact (ih _ _ (s.step (.readBlock iter _))).cons

theorem writeBlocksLoop_reaches (iter : IterOrder (BlockCache.Entry bs))
    (writes : List (ℕ × List UInt8)) (s : Tracked bs) :
    s.Reaches (BlockCache.writeBlocksLoop iter writes s.cache).2 := by
  induction writes generalizing s with
  | nil => exact ⟨[], rfl⟩
  | cons w writes ih =>
    have hcache := access_cache s w.1 (BlockCache.writeBlock iter w.1 w.2 s.cache)
    rw [BlockCache.writeBlocksLoop]
    refine bind_state (P := s.Reaches) _ ⟨[.writeBlock iter _ _], hcache⟩ fun _ c hwrite => ?_
    have hc : _ = c := congrArg Prod.snd hwrite
    obtain rfl := hcache.trans hc
    exact (ih (s.step (.writeBlock iter _ _))).cons

/-- A read of several blocks leaves the cache as a run of reads of one block does. -/
theorem readBlocks_reaches (iter : IterOrder (BlockCache.Entry bs)) (buffer : List UInt8)
    (blockOffset : ℕ) (s : Tracked bs) :
    s.Reaches (BlockCache.readBlocks iter buffer blockOffset s.cache).2 := by
  have hloop := readBlocksLoop_reaches iter blockOffset (buffer.length / bs) 0 buffer s
  rw [BlockCache.readBlocks]
  split_ifs
  · exact ⟨[], rfl⟩
  · exact (bind_pure_state _).symm ▸ hloop

/-- A write of several blocks leaves the cache as a run of writes of one block does. -/
theorem writeBlocks_reaches (iter : IterOrder (BlockCache.Entry bs)) (buffer : List UInt8)
    (blockOffset : ℕ) (s : Tracked bs) :
    s.Reaches (BlockCache.writeBlocks iter buffer blockOffset s.cache).2 := by
  have hloop := writeBlocksLoop_reaches iter (BlockCache.blockWrites bs buffer blockOffset) s
  rw [BlockCache.writeBlocks]
  split_ifs
  · exact ⟨[], rfl⟩
  · exact (bind_pure_state _).symm ▸ hloop

/-- The ticks of the entries are the record of accesses, modulo the width of the counter. -/
structure Tracks (cap : ℕ) (s : Tracked bs) : Prop where
  coherent : s.cache.Coherent
  capacity : s.cache.capacity = cap
  length : s.cache.cache.entries.length ≤ cap
  tick : s.cache.tick = wrap s.time
  ticks : ∀ b cb, s.cache.cache.find? b = some cb → cb.lruTick = wrap (s.last b) ∧ s.last b ≤ s.time
  once : ∀ b b' cb cb', s.cache.cache.find? b = some cb → s.cache.cache.find? b' = some cb' →
    s.last b = s.last b' → b = b'

theorem tracks_new (device : Device bs) (capacity : ℕ) : Tracks capacity (new device capacity) :=
  ⟨fun _ _ h => (nomatch h), rfl, Nat.zero_le _, rfl, fun _ _ h => (nomatch h),
    fun _ _ _ _ h => (nomatch h)⟩

variable {capacity : ℕ} {s : Tracked bs}

theorem Tracks.kept (h : Tracks capacity s) {c : BlockCache bs} (hkept : s.cache.Kept c)
    (hc : c.Coherent) : Tracks capacity { s with cache := c } := by
  refine ⟨hc, hkept.capacity.trans h.capacity, hkept.length_le.trans h.length,
    hkept.tick.trans h.tick, fun b cb' hb => ?_, fun b b' cb cb' hb hb' heq => ?_⟩
  · obtain ⟨cb, hcb, htick⟩ := hkept.entries b cb' hb
    exact htick ▸ h.ticks b cb hcb
  · obtain ⟨_, hcb, -⟩ := hkept.entries b cb hb
    obtain ⟨_, hcb', -⟩ := hkept.entries b' cb' hb'
    exact h.once b b' _ _ hcb hcb' heq

theorem Tracks.access {α : Type} (hcap : 1 ≤ capacity) (h : Tracks capacity s)
    {r : Outcome String α × BlockCache bs}
    (hr : BlockCache.Accessed block (∃ a, r.1 = .ok a) s.cache r.2) (hc : r.2.Coherent) :
    Tracks capacity (s.access block r) := by
  have htick : wrap (s.cache.tick + 1) = wrap (s.time + 1) := by
    rw [h.tick, wrap, wrap, wrap, Nat.mod_add_mod]
  have hlen := hr.length (h.capacity.symm ▸ hcap) (h.capacity.symm ▸ h.length)
  rw [h.capacity] at hlen
  -- what the record says about the entries afterwards
  have hentries {b : ℕ} {cb' : CachedBlock bs} (hb : r.2.cache.find? b = some cb') :
      ((∃ a, r.1 = .ok a) ∧ b = block ∧ cb'.lruTick = wrap (s.time + 1)) ∨
        ¬ ((∃ a, r.1 = .ok a) ∧ b = block) ∧ cb'.lruTick = wrap (s.last b) ∧ s.last b ≤ s.time ∧
          ∃ cb, s.cache.cache.find? b = some cb := by
    rcases hr.entries b cb' hb with ⟨hok, hbb, heq⟩ | ⟨hnot, cb, hcb, heq⟩
    · exact .inl ⟨hok, hbb, heq.trans htick⟩
    · exact .inr ⟨hnot, heq ▸ (h.ticks b cb hcb).1, (h.ticks b cb hcb).2, cb, hcb⟩
  obtain ⟨o, c⟩ := r
  cases o with
  | ok a =>
    refine ⟨hc, hr.capacity.trans h.capacity, hlen, hr.tick.trans htick, fun b cb' hb => ?_,
      fun b b' cb cb' hb hb' heq => ?_⟩
    · rcases hentries hb with ⟨-, rfl, heq⟩ | ⟨hnot, heq, hle, -⟩
      · simp [access, heq]
      · have hne : b ≠ block := fun hbb => hnot ⟨⟨a, rfl⟩, hbb⟩
        simp [Tracked.access, hne, heq, Nat.le_succ_of_le hle]
    · rcases hentries hb with ⟨-, rfl, -⟩ | ⟨hnot, -, hle, _, hcb⟩ <;>
        rcases hentries hb' with ⟨-, rfl, -⟩ | ⟨hnot', -, hle', _, hcb'⟩
      · rfl
      · have hne : b' ≠ b := fun hbb => hnot' ⟨⟨a, rfl⟩, hbb⟩
        simp [access, hne] at heq
        omega
      · have hne : b ≠ b' := fun hbb => hnot ⟨⟨a, rfl⟩, hbb⟩
        simp [access, hne] at heq
        omega
      · have hne : b ≠ block := fun hbb => hnot ⟨⟨a, rfl⟩, hbb⟩
        have hne' : b' ≠ block := fun hbb => hnot' ⟨⟨a, rfl⟩, hbb⟩
        refine h.once b b' _ _ hcb hcb' ?_
        simpa [Tracked.access, hne, hne'] using heq
  | err _ | panic =>
    have hentries' {b : ℕ} {cb' : CachedBlock bs} (hb : c.cache.find? b = some cb') :
        cb'.lruTick = wrap (s.last b) ∧ s.last b ≤ s.time ∧
          ∃ cb, s.cache.cache.find? b = some cb := by
      rcases hentries hb with ⟨⟨_, h⟩, -⟩ | ⟨-, h⟩
      · exact nomatch h
      · exact h
    refine ⟨hc, hr.capacity.trans h.capacity, hlen, hr.tick.trans htick, fun b cb' hb =>
      ⟨(hentries' hb).1, Nat.le_succ_of_le (hentries' hb).2.1⟩, fun b b' cb cb' hb hb' heq => ?_⟩
    obtain ⟨-, -, _, hcb⟩ := hentries' hb
    obtain ⟨-, -, _, hcb'⟩ := hentries' hb'
    exact h.once b b' _ _ hcb hcb' heq

theorem tracks_step (hcap : 1 ≤ capacity) (s : Tracked bs) (op : CacheOp bs)
    (h : Tracks capacity s) : Tracks capacity (s.step op) := by
  cases op with
  | readBlock iter block =>
    exact h.access hcap (accessed_readBlock iter h.coherent block)
      (readBlock_spec iter h.coherent).1.coherent
  | writeBlock iter block data =>
    exact h.access hcap (accessed_writeBlock iter block data)
      (writeBlock_spec iter h.coherent block data).1
  | invalidate block =>
    exact h.kept (kept_invalidate s.cache block)
      (coherent_invalidate h.coherent block)
  | flush iter block =>
    exact h.kept (kept_flush iter s.cache block)
      ((flush_spec iter s.cache block).1 h.coherent).coherent
  | flushAndClear iter =>
    refine h.kept (kept_flushAndClear iter s.cache) ?_
    refine bind_state _ ((flush_spec iter s.cache none).1 h.coherent).coherent ?_
    exact fun _ _ _ _ _ hcb => nomatch hcb

end Tracked

/-- `evict_one` drops an invalid entry if there is one, else the shared entry that was accessed least
recently; and if all entries are modified, it drops only what is on the device. -/
structure EvictsInOrder {bs : ℕ} (iter : IterOrder (BlockCache.Entry bs)) (s : Tracked bs) :
    Prop where
  invalid : (∃ e ∈ s.cache.cache.entries, e.2.state = .invalid) →
    ∃ e ∈ s.cache.cache.entries, e.2.state = .invalid ∧
      (BlockCache.evictOne iter s.cache).1 = .ok () ∧
      (BlockCache.evictOne iter s.cache).2.cache = s.cache.cache.remove e.1
  shared : (∀ e ∈ s.cache.cache.entries, e.2.state ≠ .invalid) →
    (∃ e ∈ s.cache.cache.entries, e.2.state = .shared) →
    ∃ e ∈ s.cache.cache.entries, e.2.state = .shared ∧
      (∀ e' ∈ s.cache.cache.entries, e'.2.state = .shared → s.last e.1 ≤ s.last e'.1) ∧
      (BlockCache.evictOne iter s.cache).1 = .ok () ∧
      (BlockCache.evictOne iter s.cache).2.cache = s.cache.cache.remove e.1
  modified : (∀ e ∈ s.cache.cache.entries, e.2.state = .modified) →
    ∀ e ∈ s.cache.cache.entries,
      (BlockCache.evictOne iter s.cache).2.cache.find? e.1 = none →
      (BlockCache.evictOne iter s.cache).2.device.contents e.1 = e.2.data

/-- If there is an invalid entry, then one has a smaller tick than all shared entries. -/
def InvalidFirst {bs : ℕ} (c : BlockCache bs) : Prop :=
  (∃ e ∈ c.cache.entries, e.2.state = .invalid) →
    ∃ e ∈ c.cache.entries, e.2.state = .invalid ∧
      ∀ e' ∈ c.cache.entries, e'.2.state = .shared → e.2.lruTick < e'.2.lruTick

section Discipline

variable {bs capacity : ℕ} {s : Tracked bs} {e : BlockCache.Entry bs}

theorem Tracked.Tracks.lruTick_eq (h : Tracked.Tracks capacity s) (htime : s.time < 2 ^ 64)
    (he : e ∈ s.cache.cache.entries) : e.2.lruTick = s.last e.1 := by
  obtain ⟨heq, hle⟩ := h.ticks e.1 e.2 (find?_eq_some.mpr he)
  rw [heq, wrap, Nat.mod_eq_of_lt (by omega)]

/-- What is dropped when all entries are modified is on the device. -/
theorem contents_of_evicted (h : s.cache.Coherent) (iter : IterOrder (BlockCache.Entry bs))
    (he : e ∈ s.cache.cache.entries) (hs : e.2.state = .modified)
    (hgone : (evictOne iter s.cache).2.cache.find? e.1 = none) :
    (evictOne iter s.cache).2.device.contents e.1 = e.2.data := by
  have hview := (moves_evictOne iter s.cache h).view_eq e.1
  rw [view_of_none hgone, view_of_some (find?_eq_some.mpr he)
    (by rw [hs]; decide)] at hview
  exact hview

/-- The entry that is dropped if not all are modified. -/
theorem evictOne_cases (iter : IterOrder (BlockCache.Entry bs)) (c : BlockCache bs) :
    (∀ e ∈ c.cache.entries, e.2.state = .modified) ∨
      ∃ e ∈ c.cache.entries, e.2.state ≠ .modified ∧
        (∀ e' ∈ c.cache.entries, e'.2.state ≠ .modified → e.2.lruTick ≤ e'.2.lruTick) ∧
        (evictOne iter c).1 = .ok () ∧
        (evictOne iter c).2.cache = c.cache.remove e.1 := by
  rw [evictOne, bind_of_ok _ (get_apply c)]
  cases hvictim : victim iter (fun cb => decide (cb.state ≠ .modified)) c with
  | none =>
    refine .inl fun e he => ?_
    rw [victim, Option.map_eq_none_iff, List.argmin_eq_none] at hvictim
    simpa using List.filter_eq_nil_iff.mp hvictim e ((iter.perm _).mem_iff.mpr he)
  | some block =>
    obtain ⟨cb, hcb, hp, hleast⟩ := victim_spec iter hvictim
    exact .inr ⟨(block, cb), find?_eq_some.mp hcb, of_decide_eq_true hp,
      fun e' he' hs => hleast e' he' (decide_eq_true hs), rfl, rfl⟩

theorem Tracked.Tracks.evictsInOrder_iff (h : Tracked.Tracks capacity s) (htime : s.time < 2 ^ 64)
    (iter : IterOrder (BlockCache.Entry bs)) : EvictsInOrder iter s ↔ InvalidFirst s.cache := by
  rcases evictOne_cases iter s.cache with hall | ⟨e, he, hs, hleast, hok, hcache⟩
  · have hstate {e : BlockCache.Entry bs} (he : e ∈ s.cache.cache.entries) {st : CacheState}
        (hst : st ≠ .modified) : e.2.state ≠ st := fun heq => hst (heq.symm.trans (hall e he))
    refine iff_of_true ⟨?_, ?_, ?_⟩ ?_
    · rintro ⟨e, he, hinvalid⟩
      exact absurd hinvalid (hstate he (by decide))
    · rintro - ⟨e, he, hshared⟩
      exact absurd hshared (hstate he (by decide))
    · exact fun _ e he hgone => contents_of_evicted h.coherent iter he (hall e he) hgone
    · rintro ⟨e, he, hinvalid⟩
      exact absurd hinvalid (hstate he (by decide))
  · have hshared {e : BlockCache.Entry bs} (hinvalid : e.2.state ≠ .invalid)
        (hs : e.2.state ≠ .modified) : e.2.state = .shared := by
      cases hstate : e.2.state <;> simp_all
    constructor
    · intro horder hex
      obtain ⟨e₁, he₁, hinvalid, -, hremoved⟩ := horder.invalid hex
      -- the entry that was dropped is the least one
      have hkey : e.1 = e₁.1 := by
        by_contra hne
        have hmem : e ∈ (s.cache.cache.remove e₁.1).entries := mem_remove.mpr ⟨he, hne⟩
        rw [← hremoved, hcache] at hmem
        exact (mem_remove.mp hmem).2 rfl
      obtain rfl := entry_ext he he₁ hkey
      refine ⟨e, he, hinvalid, fun e' he' hs' => ?_⟩
      refine lt_of_le_of_ne (hleast e' he' (by rw [hs']; decide)) fun htick => ?_
      rw [h.lruTick_eq htime he, h.lruTick_eq htime he'] at htick
      have hkey := h.once _ _ _ _ (find?_eq_some.mpr he) (find?_eq_some.mpr he') htick
      obtain rfl := entry_ext he he' hkey
      rw [hinvalid] at hs'
      cases hs'
    · intro hfirst
      refine ⟨fun hex => ?_, fun hnone _ => ?_, fun hall => absurd (hall e he) hs⟩
      · obtain ⟨e₁, he₁, hinvalid₁, hlt⟩ := hfirst hex
        refine ⟨e, he, ?_, hok, hcache⟩
        by_contra hinvalid
        have hle := hleast e₁ he₁ (by rw [hinvalid₁]; decide)
        exact absurd (hlt e he (hshared hinvalid hs)) (not_lt.mpr hle)
      · refine ⟨e, he, hshared (hnone e he) hs, fun e' he' hs' => ?_, hok, hcache⟩
        rw [← h.lruTick_eq htime he, ← h.lruTick_eq htime he']
        exact hleast e' he' (by rw [hs']; decide)

end Discipline

/-- **Eviction.** For every capacity and every run, the cache never holds more entries than its
capacity; and as long as its counter has not wrapped around, `evict_one` keeps to its order of
preference exactly if some invalid entry, should there be one, has a smaller tick than all shared
entries. -/
theorem length_le_and_evicts_in_order_iff {bs : ℕ} (device : Device bs) {capacity : ℕ}
    (hcap : 1 ≤ capacity) (ops : List (CacheOp bs)) :
    (run Tracked.step (.new device capacity) ops).cache.cache.entries.length ≤ capacity ∧
      ((run Tracked.step (.new device capacity) ops).time < 2 ^ 64 → ∀ iter,
        (EvictsInOrder iter (run Tracked.step (.new device capacity) ops) ↔
          InvalidFirst (run Tracked.step (.new device capacity) ops).cache)) := by
  have h := run_invariant (Tracked.tracks_step hcap) (Tracked.tracks_new device capacity) ops
  exact ⟨h.length, h.evictsInOrder_iff⟩

/-- A device of blocks of one byte, without faults. -/
def zeroDevice : Device 1 := ⟨fun _ => ⟨[0], rfl⟩, 0, fun _ => none⟩

/-- The order in which the entries are kept. -/
def inOrder (α : Type) : IterOrder α := ⟨id, fun _ => .rfl⟩

/-- A cache of two blocks that has read three, and one of a shared block and of an invalid one that
was read before it: the invalid one is dropped. -/
theorem length_le_and_evicts_in_order_two :
    (run Tracked.step (.new zeroDevice 2) [.readBlock (inOrder _) 0, .readBlock (inOrder _) 1,
      .readBlock (inOrder _) 2]).cache.cache.entries.length ≤ 2 ∧
    EvictsInOrder (inOrder _) (run Tracked.step (.new zeroDevice 2)
      [.readBlock (inOrder _) 0, .readBlock (inOrder _) 1, .invalidate 0]) := by
  refine ⟨(length_le_and_evicts_in_order_iff zeroDevice (by decide) _).1,
    ((length_le_and_evicts_in_order_iff zeroDevice (by decide) _).2 (by decide +kernel) _).mpr ?_⟩
  intro _
  decide +kernel

/-- Of a shared block and an invalid one that was read later, the shared one is dropped. -/
theorem shared_evicted_before_invalid :
    ¬ EvictsInOrder (inOrder _) (run Tracked.step (.new zeroDevice 2)
      [.readBlock (inOrder _) 0, .readBlock (inOrder _) 1, .invalidate 1]) := by
  intro h
  obtain ⟨e, he, hinvalid, -, hcache⟩ := h.invalid (by decide +kernel)
  have hdropped : ((evictOne (inOrder _) (run Tracked.step (.new zeroDevice 2)
      [.readBlock (inOrder _) 0, .readBlock (inOrder _) 1, .invalidate 1]).cache).2.cache.find?
        0).isNone = true := by decide +kernel
  have hshared : ∀ e ∈ (run Tracked.step (.new zeroDevice 2)
      [.readBlock (inOrder _) 0, .readBlock (inOrder _) 1, .invalidate 1]).cache.cache.entries,
      e.2.state = .invalid → e.1 = 1 := by decide +kernel
  have hkept : ((run Tracked.step (.new zeroDevice 2) [.readBlock (inOrder _) 0,
      .readBlock (inOrder _) 1, .invalidate 1]).cache.cache.find? 0).isNone = false := by
    decide +kernel
  rw [hcache, find?_remove_of_ne _ (by rw [hshared e he hinvalid]; decide)] at hdropped
  cases hdropped

end Maios.Storage
