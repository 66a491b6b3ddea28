import Maios.Library.Run
import Maios.Storage.BlockCache

/-!
# The block cache refines a plain device

Seen from outside, a cache is a map from block numbers to blocks: the cached block where there is a
valid one, the block of the device elsewhere (`view`). A plain device is just such a map.

Flushing, making room and loading move data between the cache and the device and leave the view
alone, whether they succeed or not (`Moves`); a write that succeeds changes the view at its block,
and a read that succeeds returns it. What makes this work is that a shared block agrees with the
device (`Coherent`), so that it may be dropped, and that a block stays modified until the device
has taken it.

## Main results

* `cache_refines_plain` — reads and writes are those of a plain device
* `flush_durable` — after a flush the device has what was written
-/

namespace Maios.Storage

open Function List OrdMap Act

namespace BlockCache

open Option Nat

variable {bs : ℕ}

/-- The block that the cache stands for. -/
def view (c : BlockCache bs) (b : ℕ) : Block bs :=
  match c.cache.find? b with
  | some cb => if cb.state = .invalid then c.device.contents b else cb.data
  | none => c.device.contents b

/-- Shared blocks agree with the device. -/
def Coherent (c : BlockCache bs) : Prop :=
  ∀ b cb, c.cache.find? b = some cb → cb.state = .shared → cb.data = c.device.contents b

variable {b : ℕ} {c c' c'' : BlockCache bs} (iter : IterOrder (Entry bs))

theorem view_of_none (h : c.cache.find? b = none) : c.view b = c.device.contents b := by
  rw [view, h]

theorem view_of_some {cb : CachedBlock bs} (h : c.cache.find? b = some cb)
    (hs : cb.state ≠ .invalid) : c.view b = cb.data := by
  rw [view, h]
  exact if_neg hs

/-- What is not modified may be read from the device. -/
theorem view_of_not_modified (hc : Coherent c) {cb : CachedBlock bs}
    (h : c.cache.find? b = some cb) (hs : cb.state ≠ .modified) :
    c.view b = c.device.contents b := by
  rw [view, h]
  dsimp only
  split_ifs with hinvalid
  · rfl
  have hshared : cb.state = .shared := by
    cases hstate : cb.state with
    | modified => exact absurd hstate hs
    | shared => rfl
    | invalid => exact absurd hstate hinvalid
  exact hc b cb h hshared

/-- The view at a block depends on its entry and its block of the device. -/
theorem view_congr (hcache : c'.cache.find? b = c.cache.find? b)
    (hdevice : c'.device.contents b = c.device.contents b) : c'.view b = c.view b := by
  rw [view, view, hcache, hdevice]

/-- Data was moved between the cache and the device: what the cache stands for is the same, and no
block came into the cache. -/
structure Moved (c c' : BlockCache bs) : Prop where
  coherent : Coherent c'
  view_eq : ∀ b, c'.view b = c.view b
  absent : ∀ b, c.cache.find? b = none → c'.cache.find? b = none

def Moves (c c' : BlockCache bs) : Prop := Coherent c → Moved c c'

theorem Moves.refl (c : BlockCache bs) : Moves c c := fun h => ⟨h, fun _ => rfl, fun _ h => h⟩

theorem Moves.trans (h : Moves c c') (h' : Moves c' c'') : Moves c c'' := by
  intro hc
  have hfirst := h hc
  have hsecond := h' hfirst.coherent
  exact ⟨hsecond.coherent, fun b => (hsecond.view_eq b).trans (hfirst.view_eq b),
    fun b hb => hsecond.absent b (hfirst.absent b hb)⟩

/-- A change of one entry and its block of the device. -/
theorem moves_of_frame (block : ℕ) (hcache : ∀ b, b ≠ block → c'.cache.find? b = c.cache.find? b)
    (hdevice : ∀ b, b ≠ block → c'.device.contents b = c.device.contents b)
    (hblock : Coherent c → c'.view block = c.view block ∧
      (∀ cb, c'.cache.find? block = some cb → cb.state = .shared →
        cb.data = c'.device.contents block) ∧
      (c.cache.find? block = none → c'.cache.find? block = none)) : Moves c c' := by
  intro hc
  obtain ⟨hview, hcoherent, habsent⟩ := hblock hc
  refine ⟨fun b cb hcb hs => ?_, fun b => ?_, fun b hb => ?_⟩ <;>
    obtain rfl | hbb := eq_or_ne b block
  · exact hcoherent cb hcb hs
  · rw [hcache b hbb] at hcb
    rw [hdevice b hbb]
    exact hc b cb hcb hs
  · exact hview
  · exact view_congr (hcache b hbb) (hdevice b hbb)
  · exact habsent hb
  · rw [hcache b hbb]
    exact hb

/-! ### Flushing -/

section WriteBack

variable (c : BlockCache bs) (block : ℕ) (cb : CachedBlock bs) (msg : String)

/-- What writing a block back can do. -/
theorem writeBack_cases :
    (∃ d n, writeBack block cb msg c = (.ok (), { c with
        device := d
        cache := c.cache.insert block { cb with state := .shared }
        dirtyFlushes := n }) ∧ d.contents = update c.device.contents block cb.data) ∨
    ∃ d, writeBack block cb msg c = (.err msg, { c with device := d }) ∧
      ∀ b, b ≠ block → d.contents b = c.device.contents b := by
  rw [writeBack]
  split_ifs with hwritten
  · exact .inl ⟨_, _, rfl, Device.write_contents hwritten⟩
  · exact .inr ⟨_, rfl, fun b hne => Device.write_contents_of_ne _ _ hne⟩

variable {c block cb}

theorem find?_writeBack_of_ne (hne : b ≠ block) :
    (writeBack block cb msg c).2.cache.find? b = c.cache.find? b := by
  rcases writeBack_cases c block cb msg with ⟨d, n, heq, -⟩ | ⟨d, heq, -⟩ <;> rw [heq]
  exact find?_insert_of_ne _ _ hne

/-- Writing a modified block back moves it, and leaves it modified if the device fails. -/
theorem moves_writeBack (hcb : c.cache.find? block = some cb) (hs : cb.state = .modified) :
    Moves c (writeBack block cb msg c).2 := by
  have hvalid : cb.state ≠ .invalid := by
    rw [hs]
    decide
  have hpresent : c.cache.find? block ≠ none := by
    rw [hcb]
    exact some_ne_none cb
  rcases writeBack_cases c block cb msg with ⟨d, n, heq, hd⟩ | ⟨d, heq, hd⟩ <;> rw [heq]
  · have hfind : (c.cache.insert block { cb with state := .shared }).find? block =
        some { cb with state := .shared } := find?_insert_self _ _ _
    refine moves_of_frame _ (fun b hne => find?_insert_of_ne _ _ hne) (fun b hne => ?_)
      fun _ => ⟨?_, fun cb' hcb' _ => ?_, fun hnone => absurd hnone hpresent⟩
    · dsimp only
      rw [hd, update_of_ne hne]
    · rw [view_of_some hcb hvalid, view]
      rw [hfind]
      rfl
    · obtain rfl := some.inj (hfind.symm.trans hcb')
      rw [hd, update_self]
  · refine moves_of_frame _ (fun b _ => rfl) hd
      fun _ => ⟨?_, fun cb' hcb' hs' => ?_, fun hnone => absurd hnone hpresent⟩
    · rw [view_of_some hcb hvalid]
      exact view_of_some hcb hvalid
    · obtain rfl := some.inj (hcb.symm.trans hcb')
      rw [hs] at hs'
      cases hs'

end WriteBack

/-- Flushing a list of modified blocks: data is moved; and if all could be written, only the
modified blocks that were not in the list are left. -/
theorem flushLoop_spec (dirty : List ℕ) (hnodup : dirty.Nodup)
    (hdirty : ∀ b ∈ dirty, ∃ cb, c.cache.find? b = some cb ∧ cb.state = .modified) :
    Moves c (flushLoop dirty c).2 ∧
      ((flushLoop dirty c).1 = .ok () → ∀ b cb, (flushLoop dirty c).2.cache.find? b = some cb →
        cb.state = .modified → c.cache.find? b = some cb ∧ b ∉ dirty) := by
  induction dirty generalizing c with
  | nil => exact ⟨.refl c, fun _ b cb hcb _ => ⟨hcb, not_mem_nil⟩⟩
  | cons block dirty ih =>
    obtain ⟨hnot, hnodup⟩ := nodup_cons.mp hnodup
    obtain ⟨cb, hcb, hs⟩ := hdirty block mem_cons_self
    have hmoves := moves_writeBack "BlockCache::flush_all: device write error" hcb hs
    have hothers : ∀ b ∈ dirty, ∃ cb', (writeBack block cb
        "BlockCache::flush_all: device write error" c).2.cache.find? b = some cb' ∧
        cb'.state = .modified := by
      intro b hb
      rw [find?_writeBack_of_ne _ (ne_of_mem_of_not_mem hb hnot)]
      exact hdirty b (mem_cons_of_mem _ hb)
    have hstart : flushLoop (block :: dirty) c = (do
        writeBack block cb "BlockCache::flush_all: device write error"
        flushLoop dirty : CacheM bs Unit) c := by
      rw [flushLoop, bind_of_ok _ (get_apply c)]
      rw [hcb]
    obtain ⟨hrest, hleft⟩ := ih hnodup hothers
    rw [hstart]
    rcases writeBack_cases c block cb "BlockCache::flush_all: device write error" with
      ⟨d, n, heq, -⟩ | ⟨d, heq, -⟩
    · rw [bind_of_ok _ heq]
      rw [heq] at hmoves hrest hleft
      refine ⟨hmoves.trans hrest, fun hok b cb' hcb' hs' => ?_⟩
      obtain ⟨hfind, hb⟩ := hleft hok b cb' hcb' hs'
      have hne : b ≠ block := by
        rintro rfl
        rw [find?_insert_self] at hfind
        cases hfind
        cases hs'
      rw [find?_insert_of_ne _ _ hne] at hfind
      exact ⟨hfind, fun hmem => (mem_cons.mp hmem).elim hne hb⟩
    · rw [bind_of_err _ heq]
      rw [heq] at hmoves
      exact ⟨hmoves, fun hok => nomatch hok⟩

section Flush

variable (iter : IterOrder (Entry bs)) (c : BlockCache bs)

theorem mem_dirtyBlocks :
    b ∈ dirtyBlocks iter c ↔ ∃ cb, c.cache.find? b = some cb ∧ cb.state = .modified := by
  rw [dirtyBlocks, List.mem_map]
  constructor
  · rintro ⟨⟨b, cb⟩, hmem, rfl⟩
    obtain ⟨hmem, hs⟩ := mem_filter.mp hmem
    exact ⟨cb, find?_eq_some.mpr ((iter.perm _).mem_iff.mp hmem), of_decide_eq_true hs⟩
  · rintro ⟨cb, hfind, hs⟩
    refine ⟨(b, cb), mem_filter.mpr ⟨?_, decide_eq_true hs⟩, rfl⟩
    exact (iter.perm _).mem_iff.mpr (find?_eq_some.mp hfind)

theorem nodup_dirtyBlocks : (dirtyBlocks iter c).Nodup := by
  have hkeys : (c.cache.entries.map Prod.fst).Nodup :=
    pairwise_map.mpr (c.cache.sorted.imp ne_of_lt)
  have hperm := (iter.perm c.cache.entries).map Prod.fst
  exact (hperm.nodup_iff.mpr hkeys).sublist (filter_sublist.map Prod.fst)

/-- Flushing moves data; after flushing everything no block is modified. -/
theorem flush_spec (block : Option ℕ) :
    Moves c (flush iter block c).2 ∧ (block = none → (flush iter block c).1 = .ok () →
      ∀ b cb, (flush iter block c).2.cache.find? b = some cb → cb.state ≠ .modified) := by
  cases block with
  | some block =>
    refine ⟨?_, fun h => nomatch h⟩
    rw [flush, bind_of_ok _ (get_apply c)]
    cases hcb : c.cache.find? block with
    | none => exact .refl c
    | some cb =>
      dsimp only
      split_ifs with hs
      · exact moves_writeBack _ hcb hs
      · exact .refl c
  | none =>
    obtain ⟨hmoves, hleft⟩ := flushLoop_spec (dirtyBlocks iter c) (nodup_dirtyBlocks iter c)
      (c := c) fun b hb => (mem_dirtyBlocks iter c).mp hb
    refine ⟨hmoves, fun _ hok b cb hcb hs => ?_⟩
    obtain ⟨hfind, hnot⟩ := hleft hok b cb hcb hs
    exact hnot ((mem_dirtyBlocks iter c).mpr ⟨cb, hfind, hs⟩)

end Flush

/-! ### Making room -/

section Evict

variable (iter : IterOrder (Entry bs)) {c : BlockCache bs} {block : ℕ}

/-- Dropping a block that is not modified moves nothing out of sight. -/
theorem moves_evict (h : ∀ cb, c.cache.find? block = some cb → cb.state ≠ .modified) :
    Moves c (evict block c).2 := by
  have hfind : (c.cache.remove block).find? block = none := find?_remove_self _ _
  refine moves_of_frame block (fun b hne => find?_remove_of_ne _ hne)
    (fun b _ => rfl) fun hc => ⟨?_, fun cb hcb => ?_, fun _ => hfind⟩
  · rw [view_of_none hfind]
    cases hcb : c.cache.find? block with
    | none => exact (view_of_none hcb).symm
    | some cb => exact (view_of_not_modified hc hcb (h cb hcb)).symm
  · rw [show (evict block c).2.cache.find? block = none from hfind] at hcb
    cases hcb

/-- The victim is accessed least recently among the selected entries. -/
theorem victim_spec {p : CachedBlock bs → Bool} (h : victim iter p c = some block) :
    ∃ cb, c.cache.find? block = some cb ∧ p cb = true ∧
      ∀ e ∈ c.cache.entries, p e.2 = true → cb.lruTick ≤ e.2.lruTick := by
  obtain ⟨⟨b, cb⟩, hmin, rfl⟩ := map_eq_some_iff.mp h
  obtain ⟨hmem, hp⟩ := mem_filter.mp (argmin_mem hmin)
  refine ⟨cb, find?_eq_some.mpr ((iter.perm _).mem_iff.mp hmem), hp, fun e he hpe => ?_⟩
  have hmem' : e ∈ (iter.order c.cache.entries).filter fun e => p e.2 :=
    mem_filter.mpr ⟨(iter.perm _).mem_iff.mpr he, hpe⟩
  exact le_of_mem_argmin (f := fun e : Entry bs => e.2.lruTick) hmem' hmin

theorem moves_evictOne (c : BlockCache bs) : Moves c (evictOne iter c).2 := by
  rw [evictOne, bind_of_ok _ (get_apply c)]
  cases hvictim : victim iter (fun cb => decide (cb.state ≠ .modified)) c with
  | some block =>
    obtain ⟨cb, hcb, hp, -⟩ := victim_spec iter hvictim
    refine moves_evict fun cb' hcb' => ?_
    obtain rfl := some.inj (hcb.symm.trans hcb')
    exact of_decide_eq_true hp
  | none => ?_
  obtain ⟨hmoves, hclean⟩ := flush_spec iter c none
  refine bind_state _ hmoves fun _ c₁ hflush => ?_
  rw [hflush] at hmoves hclean
  rw [bind_of_ok _ (get_apply c₁)]
  refine hmoves.trans ?_
  cases victim iter (fun _ => true) c₁ with
  | none => exact .refl c₁
  | some block => exact moves_evict fun cb hcb => hclean rfl rfl block cb hcb

theorem moves_makeRoom (block : ℕ) (c : BlockCache bs) : Moves c (makeRoom iter block c).2 := by
  rw [makeRoom, bind_of_ok _ (get_apply c)]
  split_ifs
  · exact moves_evictOne iter c
  · exact .refl c

end Evict

/-! ### Reading and writing a block -/

/-- The cache stands for the same map. -/
structure Same (c c' : BlockCache bs) : Prop where
  coherent : Coherent c'
  view_eq : ∀ b, c'.view b = c.view b

theorem Same.trans (h : Same c c') (h' : Same c' c'') : Same c c'' :=
  ⟨h'.coherent, fun b => (h'.view_eq b).trans (h.view_eq b)⟩

theorem Moved.same (h : Moved c c') : Same c c' := ⟨h.coherent, h.view_eq⟩

/-- Counters are not part of what the cache stands for. -/
theorem same_of_eq (hc : Coherent c) (hcache : c'.cache = c.cache)
    (hdevice : c'.device = c.device) : Same c c' := by
  refine ⟨fun b cb hcb hs => ?_, fun b => view_congr (by rw [hcache]) (by rw [hdevice])⟩
  rw [hcache] at hcb
  rw [hdevice]
  exact hc b cb hcb hs

section Read

variable (iter : IterOrder (Entry bs)) {c : BlockCache bs} (hc : Coherent c) {block : ℕ}
include hc

/-- Replacing an entry by a valid one with the data that the cache stands for. -/
theorem same_insert {d : Device bs} (hd : d.contents = c.device.contents) (cb : CachedBlock bs)
    (hdata : cb.data = c.view block) (hvalid : cb.state ≠ .invalid)
    (hshared : cb.state = .shared → cb.data = c.device.contents block)
    (hcache : c'.cache = c.cache.insert block cb) (hdevice : c'.device = d) : Same c c' := by
  have hself : c'.cache.find? block = some cb := by
    rw [hcache]
    exact find?_insert_self _ _ _
  have hother : ∀ b, b ≠ block → c'.cache.find? b = c.cache.find? b := fun b hne => by
    rw [hcache]
    exact find?_insert_of_ne _ _ hne
  have hcontents : c'.device.contents = c.device.contents := by rw [hdevice, hd]
  refine ⟨fun b cb' hcb' hs => ?_, fun b => ?_⟩ <;> obtain rfl | hb := eq_or_ne b block
  · obtain rfl := some.inj (hself.symm.trans hcb')
    rw [hcontents]
    exact hshared hs
  · rw [hother b hb] at hcb'
    rw [hcontents]
    exact hc b cb' hcb' hs
  · rw [view_of_some hself hvalid, hdata]
  · exact view_congr (hother b hb) (congrFun hcontents b)

/-- Reading a block that the device holds into the cache. -/
theorem fetch_spec (hview : c.view block = c.device.contents block) :
    Same c (fetch block c).2 ∧ ((fetch block c).1 = .ok () → (fetch block c).2.isValid block) := by
  rw [fetch]
  cases hread : (c.device.read block).1 with
  | some data =>
    have hdata := Device.read_eq_some hread
    refine ⟨same_insert hc (c.device.read_contents block) ⟨data, .shared, c.tick⟩
      (hdata.trans hview.symm) CacheState.noConfusion (fun _ => hdata) rfl rfl, fun _ => ?_⟩
    rw [isValid]
    rw [find?_insert_self]
    rfl
  | none =>
    refine ⟨⟨fun b cb hcb hs => ?_, fun b => view_congr rfl ?_⟩, fun hok => nomatch hok⟩ <;>
      dsimp only <;> rw [Device.read_contents]
    exact hc b cb hcb hs

theorem loadFromDevice_spec (hinvalid : ¬ c.isValid block) :
    Same c (loadFromDevice iter block c).2 ∧ ((loadFromDevice iter block c).1 = .ok () →
      (loadFromDevice iter block c).2.isValid block) := by
  have hmoved := moves_makeRoom iter block c hc
  refine bind_ends (P := fun r => Same c r.2 ∧ (r.1 = .ok () → r.2.isValid block)) _
    (fun o ho => ⟨hmoved.same, fun hok => absurd hok (ho ())⟩) fun _ c₁ hroom => ?_
  rw [hroom] at hmoved
  have hview : c₁.view block = c₁.device.contents block := by
    cases hfind : c.cache.find? block with
    | none => exact view_of_none (hmoved.absent block hfind)
    | some cb => ?_
    have hpresent : makeRoom iter block c = (.ok (), c) := by
      rw [makeRoom, bind_of_ok _ (get_apply c), hfind]
      rfl
    obtain rfl : c = c₁ := congrArg Prod.snd (hpresent.symm.trans hroom)
    have hstate : cb.state = .invalid := by
      rw [isValid, hfind] at hinvalid
      simpa using hinvalid
    rw [view, hfind]
    exact if_pos hstate
  obtain ⟨hsame, hvalid⟩ := fetch_spec hmoved.coherent hview
  exact ⟨hmoved.same.trans hsame, hvalid⟩

/-- Returning a valid block and noting the access. -/
theorem touch_spec (hvalid : c.isValid block) :
    Same c (touch block c).2 ∧ ∀ data, (touch block c).1 = .ok data → data = c.view block := by
  rw [touch]
  cases hfind : c.cache.find? block with
  | none =>
    rw [isValid, hfind] at hvalid
    cases hvalid
  | some cb => ?_
  have hstate : cb.state ≠ .invalid := by
    rw [isValid, hfind] at hvalid
    exact of_decide_eq_true hvalid
  have hview := view_of_some hfind hstate
  refine ⟨same_insert hc rfl { cb with lruTick := c.tick } hview.symm hstate
    (fun hs => hc block cb hfind hs) rfl rfl, fun data hok => ?_⟩
  rw [hview]
  exact (Outcome.ok.inj hok).symm

theorem makeValid_spec :
    Same c (makeValid iter block c).2 ∧
      ((makeValid iter block c).1 = .ok () → (makeValid iter block c).2.isValid block) := by
  rw [makeValid, bind_of_ok _ (get_apply c)]
  split_ifs with hvalid
  · exact ⟨same_of_eq hc rfl rfl, fun _ => hvalid⟩
  · exact loadFromDevice_spec iter hc hvalid

/-- A read leaves what the cache stands for, and returns it. -/
theorem readBlock_spec :
    Same c (readBlock iter block c).2 ∧
      ∀ data, (readBlock iter block c).1 = .ok data → data = c.view block := by
  have htick : nextTick c = (.ok (), { c with tick := wrap (c.tick + 1) }) := rfl
  have hsame₁ : Same c { c with tick := wrap (c.tick + 1) } := same_of_eq hc rfl rfl
  rw [readBlock, bind_of_ok _ htick]
  generalize { c with tick := wrap (c.tick + 1) } = c₁ at hsame₁ ⊢
  obtain ⟨hsame₂, hvalid⟩ := @makeValid_spec bs iter c₁ hsame₁.coherent block
  have hsame := hsame₁.trans hsame₂
  refine bind_ends (P := fun r => Same c r.2 ∧ ∀ data, r.1 = .ok data → data = c.view block) _
    (fun o ho => ⟨hsame, fun data hok => absurd hok (ho data)⟩) fun _ c₂ hload => ?_
  rw [hload] at hsame hvalid
  obtain ⟨hsame₃, hdata⟩ := touch_spec hsame.coherent (hvalid rfl)
  exact ⟨hsame.trans hsame₃, fun data hok => (hdata data hok).trans (hsame.view_eq block)⟩

end Read

section Write

variable (iter : IterOrder (Entry bs)) {c : BlockCache bs} (hc : Coherent c) (block : ℕ)
include hc

theorem store_spec (data : Block bs) (tick : ℕ) :
    Coherent (store block data tick c).2 ∧
      ∀ b, (store block data tick c).2.view b = update c.view block data b := by
  have hself : (store block data tick c).2.cache.find? block = some ⟨data, .modified, tick⟩ :=
    find?_insert_self _ _ _
  have hother : ∀ b, b ≠ block →
      (store block data tick c).2.cache.find? b = c.cache.find? b := fun b hne =>
    find?_insert_of_ne _ _ hne
  refine ⟨fun b cb hcb hs => ?_, fun b => ?_⟩ <;> obtain rfl | hb := eq_or_ne b block
  · obtain rfl := some.inj (hself.symm.trans hcb)
    cases hs
  · rw [hother b hb] at hcb
    exact hc b cb hcb hs
  · rw [update_self]
    exact view_of_some hself CacheState.noConfusion
  · rw [update_of_ne hb]
    exact view_congr (hother b hb) rfl

/-- A write that succeeds changes what the cache stands for at its block; one that fails changes
nothing. -/
theorem writeBlock_spec (data : List UInt8) :
    Coherent (writeBlock iter block data c).2 ∧
      match (writeBlock iter block data c).1 with
      | .ok _ => ∃ owned, Block.ofList bs data = some owned ∧
          ∀ b, (writeBlock iter block data c).2.view b = update c.view block owned b
      | _ => ∀ b, (writeBlock iter block data c).2.view b = c.view b := by
  have htick : nextTick c = (.ok (), { c with tick := wrap (c.tick + 1) }) := rfl
  have hsame₁ : Same c { c with tick := wrap (c.tick + 1) } := same_of_eq hc rfl rfl
  rw [writeBlock, bind_of_ok _ htick, bind_of_ok _ (get_apply _)]
  generalize { c with tick := wrap (c.tick + 1) } = c₁ at hsame₁ ⊢
  cases hdata : Block.ofList bs data with
  | none => exact ⟨hsame₁.coherent, hsame₁.view_eq⟩
  | some owned => ?_
  have hmoved := moves_makeRoom iter block c₁ hsame₁.coherent
  dsimp only
  rcases hroom : makeRoom iter block c₁ with ⟨o, c₂⟩
  rw [hroom] at hmoved
  have hsame := hsame₁.trans hmoved.same
  cases o with
  | ok u =>
    rw [bind_of_ok _ hroom]
    obtain ⟨hcoherent, hview⟩ := store_spec hsame.coherent block owned c₁.tick
    refine ⟨hcoherent, owned, rfl, fun b => ?_⟩
    rw [hview b, show c₂.view = c.view from funext hsame.view_eq]
  | err e =>
    rw [bind_of_err _ hroom]
    exact ⟨hsame.coherent, hsame.view_eq⟩
  | panic =>
    rw [bind_of_panic _ hroom]
    exact ⟨hsame.coherent, hsame.view_eq⟩

end Write

/-! ### Several blocks -/

/-- A buffer whose `i`-th block is replaced: the blocks before it, and what comes after it. -/
theorem take_drop_splice {buffer : List UInt8} {i : ℕ} (src : Block bs)
    (hlen : (i + 1) * bs ≤ buffer.length) (k : ℕ) :
    (buffer.take (i * bs) ++ src.1 ++ buffer.drop ((i + 1) * bs)).take ((i + 1) * bs) =
        buffer.take (i * bs) ++ src.1 ∧
      (buffer.take (i * bs) ++ src.1 ++ buffer.drop ((i + 1) * bs)).drop ((i + 1) * bs + k) =
        buffer.drop ((i + 1) * bs + k) := by
  have hmul : (i + 1) * bs = i * bs + bs := succ_mul i bs
  have hfront : (buffer.take (i * bs) ++ src.1).length = (i + 1) * bs := by
    rw [length_append, length_take]
    omega
  constructor
  · rw [← hfront, take_left]
  · rw [← drop_drop, drop_left' hfront, drop_drop]

theorem readBlocksLoop_spec (blockOffset n i : ℕ) (buffer : List UInt8) (hc : Coherent c)
    (hlen : (i + n) * bs ≤ buffer.length) :
    Same c (readBlocksLoop iter blockOffset n i buffer c).2 ∧
      ∀ buffer', (readBlocksLoop iter blockOffset n i buffer c).1 = .ok buffer' →
        buffer' = buffer.take (i * bs) ++
          ((range' i n).flatMap fun j => (c.view (wrap (blockOffset + j))).1) ++
          buffer.drop ((i + n) * bs) := by
  induction n generalizing i buffer c with
  | zero =>
    refine ⟨⟨hc, fun _ => rfl⟩, fun buffer' hok => ?_⟩
    cases hok
    rw [range'_zero, flatMap_nil, append_nil, add_zero, take_append_drop]
  | succ n ih =>
    obtain ⟨hsame, hdata⟩ : Same c (readBlock iter (wrap (blockOffset + i)) c).2 ∧
        ∀ data, (readBlock iter (wrap (blockOffset + i)) c).1 = .ok data →
          data = c.view (wrap (blockOffset + i)) := readBlock_spec iter hc
    have hcount : (i + (n + 1)) * bs = (i + 1) * bs + n * bs := by
      rw [← Nat.add_mul, Nat.add_right_comm, Nat.add_assoc]
    have hblock : (i + 1) * bs ≤ buffer.length := by omega
    rw [readBlocksLoop]
    rcases hread : readBlock iter (wrap (blockOffset + i)) c with ⟨o, c₁⟩
    rw [hread] at hsame hdata
    have hmap : ((readBlock iter (wrap (blockOffset + i))).mapError fun _ => IoError.invalidInput) c
        = (o.mapError fun _ => IoError.invalidInput, c₁) := by
      rw [mapError, hread]
    cases o with
    | ok src =>
      obtain ⟨htake, hdrop⟩ := take_drop_splice src hblock (n * bs)
      have hlength : (i + 1 + n) * bs ≤
          (buffer.take (i * bs) ++ src.1 ++ buffer.drop ((i + 1) * bs)).length := by
        rw [length_append, length_append, length_take, length_drop]
        have hmul : (i + 1) * bs = i * bs + bs := succ_mul i bs
        have hmul' : (i + 1 + n) * bs = (i + 1) * bs + n * bs := add_mul _ _ _
        omega
      obtain ⟨hrest, hbuffer⟩ := ih (i + 1) _ hsame.coherent hlength
      rw [bind_of_ok _ hmap]
      refine ⟨hsame.trans hrest, fun buffer' hok => ?_⟩
      rw [hbuffer buffer' hok, htake, add_mul (i + 1) n bs, hdrop, ← hcount, range'_succ,
        flatMap_cons, ← hdata src rfl, show c₁.view = c.view from funext hsame.view_eq]
      simp only [append_assoc]
    | err e =>
      rw [bind_of_err _ hmap]
      exact ⟨hsame, fun buffer' hok => nomatch hok⟩
    | panic =>
      rw [bind_of_panic _ hmap]
      exact ⟨hsame, fun buffer' hok => nomatch hok⟩

/-- A read of several blocks returns what the cache stands for. -/
theorem readBlocks_spec (buffer : List UInt8) (blockOffset : ℕ) (hc : Coherent c) :
    Same c (readBlocks iter buffer blockOffset c).2 ∧
      ∀ n buffer', (readBlocks iter buffer blockOffset c).1 = .ok (n, buffer') →
        n = buffer.length / bs ∧
        buffer' = ((range n).flatMap fun i => (c.view (wrap (blockOffset + i))).1) ++
          buffer.drop (n * bs) := by
  rw [readBlocks]
  split_ifs with hbs
  · exact ⟨⟨hc, fun _ => rfl⟩, fun _ _ hok => nomatch hok⟩
  obtain ⟨hsame, hbuffer⟩ := readBlocksLoop_spec iter blockOffset (buffer.length / bs) 0
    buffer hc (by rw [zero_add]; exact div_mul_le_self _ _)
  rcases hloop : readBlocksLoop iter blockOffset (buffer.length / bs) 0 buffer c with ⟨o, c₁⟩
  rw [hloop] at hsame hbuffer
  cases o with
  | ok buffer₁ =>
    rw [bind_of_ok _ hloop]
    refine ⟨hsame, fun n buffer' hok => ?_⟩
    cases hok
    have hresult := hbuffer buffer₁ rfl
    rw [zero_mul, zero_add, ← range_eq_range'] at hresult
    exact ⟨rfl, hresult⟩
  | err e =>
    rw [bind_of_err _ hloop]
    exact ⟨hsame, fun _ _ hok => nomatch hok⟩
  | panic =>
    rw [bind_of_panic _ hloop]
    exact ⟨hsame, fun _ _ hok => nomatch hok⟩

/-! ### The plain device -/

/-- The writes of a list that succeed, that is those before the first that fails. -/
def acceptedWrites (iter : IterOrder (Entry bs)) :
    List (ℕ × List UInt8) → BlockCache bs → List (ℕ × Block bs)
  | [], _ => []
  | w :: writes, c =>
    match writeBlock iter w.1 w.2 c, Block.ofList bs w.2 with
    | (.ok _, c'), some owned => (w.1, owned) :: acceptedWrites iter writes c'
    | _, _ => []

end BlockCache

/-- A plain device after some writes. -/
def plainWrites {bs : ℕ} (plain : ℕ → Block bs) (writes : List (ℕ × Block bs)) : ℕ → Block bs :=
  writes.foldl (fun m w => Function.update m w.1 w.2) plain

open BlockCache in
theorem writeBlocksLoop_spec {bs : ℕ} (iter : IterOrder (Entry bs))
    (writes : List (ℕ × List UInt8)) {c : BlockCache bs} (hc : Coherent c) :
    Coherent (writeBlocksLoop iter writes c).2 ∧
      (writeBlocksLoop iter writes c).2.view =
        plainWrites c.view (acceptedWrites iter writes c) := by
  induction writes generalizing c with
  | nil => exact ⟨hc, rfl⟩
  | cons w writes ih =>
    obtain ⟨hcoherent, hview⟩ := writeBlock_spec iter hc w.1 w.2
    rw [writeBlocksLoop, acceptedWrites]
    rcases hwrite : writeBlock iter w.1 w.2 c with ⟨o, c₁⟩
    rw [hwrite] at hcoherent hview
    have hmap : ((writeBlock iter w.1 w.2).mapError fun _ => IoError.invalidInput) c =
        (o.mapError fun _ => IoError.invalidInput, c₁) := by
      rw [mapError, hwrite]
    cases o with
    | ok u =>
      obtain ⟨owned, howned, hview⟩ := hview
      obtain ⟨hrest, hviews⟩ := ih hcoherent
      rw [bind_of_ok _ hmap, howned]
      refine ⟨hrest, hviews.trans ?_⟩
      rw [show c₁.view = update c.view w.1 owned from funext hview]
      rfl
    | err e =>
      rw [bind_of_err _ hmap]
      exact ⟨hcoherent, funext hview⟩
    | panic =>
      rw [bind_of_panic _ hmap]
      exact ⟨hcoherent, funext hview⟩

/-- A cache, beside the plain device that took the writes that succeeded. -/
structure PlainSystem (bs : ℕ) where
  cache : BlockCache bs
  plain : ℕ → Block bs

/-- The calls of a cache that is the only user of its device. -/
inductive PlainOp (bs : ℕ) where
  | readBlock (iter : IterOrder (BlockCache.Entry bs)) (block : ℕ)
  | writeBlock (iter : IterOrder (BlockCache.Entry bs)) (block : ℕ) (data : List UInt8)
  | flush (iter : IterOrder (BlockCache.Entry bs)) (block : Option ℕ)
  | readBlocks (iter : IterOrder (BlockCache.Entry bs)) (buffer : List UInt8) (blockOffset : ℕ)
  | writeBlocks (iter : IterOrder (BlockCache.Entry bs)) (buffer : List UInt8) (blockOffset : ℕ)

namespace PlainSystem

variable {bs : ℕ} {s : PlainSystem bs}

def new (device : Device bs) (capacity : ℕ) : PlainSystem bs :=
  ⟨.withCapacity device capacity, device.contents⟩

def step (s : PlainSystem bs) : PlainOp bs → PlainSystem bs
  | .readBlock iter block => { s with cache := (BlockCache.readBlock iter block s.cache).2 }
  | .writeBlock iter block data =>
    { cache := (BlockCache.writeBlock iter block data s.cache).2
      plain := plainWrites s.plain (BlockCache.acceptedWrites iter [(block, data)] s.cache) }
  | .flush iter block => { s with cache := (BlockCache.flush iter block s.cache).2 }
  | .readBlocks iter buffer blockOffset =>
    { s with cache := (BlockCache.readBlocks iter buffer blockOffset s.cache).2 }
  | .writeBlocks iter buffer blockOffset =>
    { cache := (BlockCache.writeBlocks iter buffer blockOffset s.cache).2
      plain := plainWrites s.plain
        (BlockCache.acceptedWrites iter (BlockCache.blockWrites bs buffer blockOffset) s.cache) }

/-- The cache stands for the plain device. -/
structure Refines (s : PlainSystem bs) : Prop where
  coherent : s.cache.Coherent
  view_eq : s.cache.view = s.plain

theorem refines_new (device : Device bs) (capacity : ℕ) : Refines (new device capacity) :=
  ⟨fun _ _ hcb => absurd hcb (Option.some_ne_none _).symm, rfl⟩

theorem Refines.of_same (h : Refines s) {c : BlockCache bs} (hsame : s.cache.Same c) :
    Refines { s with cache := c } :=
  ⟨hsame.coherent, (funext hsame.view_eq).trans h.view_eq⟩

theorem refines_writeBlocks (h : Refines s) (iter : IterOrder (BlockCache.Entry bs))
    (buffer : List UInt8) (blockOffset : ℕ) :
    Refines (s.step (.writeBlocks iter buffer blockOffset)) := by
  obtain ⟨hcoherent, hview⟩ :=
    writeBlocksLoop_spec iter (BlockCache.blockWrites bs buffer blockOffset) h.coherent
  rw [h.view_eq] at hview
  rw [step, BlockCache.writeBlocks]
  split_ifs with hbs
  · subst hbs
    refine ⟨h.coherent, h.view_eq.trans ?_⟩
    rw [BlockCache.blockWrites, Nat.div_zero]
    rfl
  refine bind_state (P := fun c => Refines ⟨c, _⟩) _ ⟨hcoherent, hview⟩ fun _ c₁ hloop => ?_
  rw [hloop] at hcoherent hview
  exact ⟨hcoherent, hview⟩

theorem refines_step (s : PlainSystem bs) (op : PlainOp bs) (h : Refines s) :
    Refines (s.step op) := by
  cases op with
  | readBlock iter block => exact h.of_same (BlockCache.readBlock_spec iter h.coherent).1
  | writeBlock iter block data =>
    obtain ⟨hcoherent, hview⟩ := BlockCache.writeBlock_spec iter h.coherent block data
    refine ⟨hcoherent, ?_⟩
    rw [step, BlockCache.acceptedWrites]
    rcases hwrite : BlockCache.writeBlock iter block data s.cache with ⟨o, c₁⟩
    rw [hwrite] at hview
    cases o with
    | ok u =>
      obtain ⟨owned, howned, hview⟩ := hview
      rw [howned, ← h.view_eq]
      exact funext hview
    | err e | panic => exact (funext hview).trans h.view_eq
  | flush iter block =>
    exact h.of_same ((BlockCache.flush_spec iter s.cache block).1 h.coherent).same
  | readBlocks iter buffer blockOffset =>
    exact h.of_same (BlockCache.readBlocks_spec iter buffer blockOffset h.coherent).1
  | writeBlocks iter buffer blockOffset => exact refines_writeBlocks h iter buffer blockOffset

end PlainSystem

/-- **The cache refines a plain device.** For every capacity, every pattern of failures of the
device and every iteration order of the hash map, the cache stands for the plain device that took
the successful writes, and what it reads is what that device holds. -/
theorem cache_refines_plain {bs : ℕ} (device : Device bs) (capacity : ℕ) (ops : List (PlainOp bs)) :
    (∀ b, (run PlainSystem.step (.new device capacity) ops).cache.view b =
        (run PlainSystem.step (.new device capacity) ops).plain b) ∧
      (∀ iter block data,
        (BlockCache.readBlock iter block
            (run PlainSystem.step (.new device capacity) ops).cache).1 = .ok data →
          data = (run PlainSystem.step (.new device capacity) ops).plain block) ∧
      ∀ iter buffer blockOffset n buffer',
        (BlockCache.readBlocks iter buffer blockOffset
            (run PlainSystem.step (.new device capacity) ops).cache).1 = .ok (n, buffer') →
          n = buffer.length / bs ∧
          buffer' = ((List.range n).flatMap fun i =>
              ((run PlainSystem.step (.new device capacity) ops).plain
                (wrap (blockOffset + i))).1) ++ buffer.drop (n * bs) := by
  have h := run_invariant PlainSystem.refines_step (PlainSystem.refines_new device capacity) ops
  refine ⟨fun b => congrFun h.view_eq b, fun iter block data hok => ?_,
    fun iter buffer blockOffset n buffer' hok => ?_⟩ <;> rw [← h.view_eq]
  · exact (BlockCache.readBlock_spec iter h.coherent).2 data hok
  · exact (BlockCache.readBlocks_spec iter buffer blockOffset h.coherent).2 n buffer' hok

/-- **A flush makes the writes durable.** Once `flush(None)` succeeds, the device itself holds what
the plain device holds, also after earlier accesses failed. -/
theorem flush_durable {bs : ℕ} (device : Device bs) (capacity : ℕ) (ops : List (PlainOp bs))
    (s : PlainSystem bs) (hs : s = run PlainSystem.step (.new device capacity) ops)
    (iter : IterOrder (BlockCache.Entry bs))
    (hok : (BlockCache.flush iter none s.cache).1 = .ok ()) (b : ℕ) :
    (BlockCache.flush iter none s.cache).2.device.contents b = s.plain b := by
  have h := run_invariant PlainSystem.refines_step (PlainSystem.refines_new device capacity) ops
  rw [← hs] at h
  obtain ⟨hmoves, hclean⟩ := BlockCache.flush_spec iter s.cache none
  have hmoved := hmoves h.coherent
  rw [← h.view_eq, ← hmoved.view_eq]
  cases hcb : OrdMap.find? _ b with
  | none => exact (BlockCache.view_of_none hcb).symm
  | some cb =>
    exact (BlockCache.view_of_not_modified hmoved.coherent hcb (hclean rfl hok b cb hcb)).symm

/-- The first write of a block to the device fails, and a later flush writes it. -/
theorem flush_durable_retried :
    (BlockCache.flush ⟨id, fun _ => .rfl⟩ none (run PlainSystem.step (.new
      (⟨fun _ => ⟨[0], rfl⟩, 0, fun n => if n = 0 then some ⟨[9], rfl⟩ else none⟩ : Device 1) 1)
      [.writeBlock ⟨id, fun _ => .rfl⟩ 5 [7],
        .flush ⟨id, fun _ => .rfl⟩ none]).cache).2.device.contents 5 = ⟨[7], rfl⟩ :=
  flush_durable _ _ _ _ rfl _ (by decide) 5

end Maios.Storage
