import Maios.Heap.Slab

/-!
# The lists of a slab allocator

An `SCAllocator` has three lists of pages, all linked through the pages. As long as each page is in
one of the lists only, a page can be put into a list, taken out of the one that it is in, or moved,
and nothing is written to pages of other lists.
-/

namespace Maios.Slab

open Function List

/-! ### Lists -/

namespace SCAllocator

variable (sc : SCAllocator) (κ : Kind) (l : PageList)

@[simp] theorem size_setList : (sc.setList κ l).size = sc.size := by cases κ <;> rfl

@[simp] theorem objPerPage_setList : (sc.setList κ l).objPerPage = sc.objPerPage := by
  cases κ <;> rfl

@[simp] theorem list_setList_self : (sc.setList κ l).list κ = l := by cases κ <;> rfl

theorem list_setList_of_ne {κ κ' : Kind} (h : κ' ≠ κ) : (sc.setList κ l).list κ' = sc.list κ' := by
  cases κ <;> cases κ' <;> first | rfl | exact absurd rfl h

end SCAllocator

/-- The pages of the three lists of a size, each page in one list only. -/
structure Lists (links : Links ℕ) (sc : SCAllocator) (l : Kind → List ℕ) : Prop where
  isList : ∀ κ, links.IsList (sc.list κ).head (l κ)
  apart : ∀ κ κ' b, b ∈ l κ → b ∈ l κ' → κ = κ'

variable {source target : Kind}

namespace Lists

variable {links links' : Links ℕ} {sc : SCAllocator} {l : Kind → List ℕ} {κ : Kind} {b : ℕ}
  {l₁ l₂ : List ℕ}

section

variable (h : Lists links sc l)

include h

theorem congr
    (hsame : ∀ κ, ∀ a ∈ l κ, links'.next a = links.next a ∧ links'.prev a = links.prev a) :
    Lists links' sc l :=
  ⟨fun κ => (h.isList κ).congr (hsame κ), h.apart⟩

/-- One list has changed, and the links of its own nodes only. -/
theorem update {m : List ℕ} {pl : PageList} {b : ℕ} (hlist : links'.IsList pl.head m)
    (hmem : ∀ a ∈ m, a ∈ l κ ∨ a = b) (hb : ∀ κ', κ' ≠ κ → b ∉ l κ')
    (hframe : ∀ a, a ∉ l κ → a ≠ b → links'.next a = links.next a ∧ links'.prev a = links.prev a) :
    Lists links' (sc.setList κ pl) (update l κ m) := by
  have hother : ∀ κ', κ' ≠ κ → ∀ a ∈ l κ', a ∉ l κ ∧ a ≠ b := fun κ' hne a ha =>
    ⟨fun hak => hne (h.apart κ' κ a ha hak), fun he => hb κ' hne (he ▸ ha)⟩
  refine ⟨fun κ' => ?_, fun κ₁ κ₂ a h₁ h₂ => ?_⟩
  · obtain rfl | hκ := eq_or_ne κ' κ
    · rw [SCAllocator.list_setList_self, update_self]
      exact hlist
    · rw [SCAllocator.list_setList_of_ne sc pl hκ, update_of_ne hκ]
      exact (h.isList κ').congr fun a ha => hframe a (hother κ' hκ a ha).1 (hother κ' hκ a ha).2
  · by_cases hκ₁ : κ₁ = κ
    · by_cases hκ₂ : κ₂ = κ
      · rw [hκ₁, hκ₂]
      · rw [hκ₁, update_self] at h₁
        rw [update_of_ne hκ₂] at h₂
        obtain ⟨hnot, hne⟩ := hother κ₂ hκ₂ a h₂
        exact absurd (hmem a h₁) (not_or.mpr ⟨hnot, hne⟩)
    · rw [update_of_ne hκ₁] at h₁
      by_cases hκ₂ : κ₂ = κ
      · rw [hκ₂, update_self] at h₂
        obtain ⟨hnot, hne⟩ := hother κ₁ hκ₁ a h₁
        exact absurd (hmem a h₂) (not_or.mpr ⟨hnot, hne⟩)
      · rw [update_of_ne hκ₂] at h₂
        exact h.apart κ₁ κ₂ a h₁ h₂

/-- A page that is in no list is put into one. -/
theorem insert (κ : Kind) (hb : ∀ κ', b ∉ l κ') (hnext : links.next b = none) (n : ℕ) :
    Lists (links.insertFront (sc.list κ).head b) (sc.setList κ ⟨some b, n⟩)
      (Function.update l κ (b :: l κ)) := by
  refine h.update ((h.isList κ).insertFront (hb κ) hnext) (fun a ha => ?_) (fun κ' _ => hb κ')
    fun a ha hab => Links.insertFront_of_not_mem (h.isList κ).head_eq ?_
  · rcases mem_cons.mp ha with rfl | ha
    · exact .inr rfl
    · exact .inl ha
  · rw [mem_cons, not_or]
    exact ⟨hab, ha⟩

section

variable (hl : l κ = l₁ ++ b :: l₂)

include hl

theorem not_mem_of_eq {κ' : Kind} (hκ : κ' ≠ κ) : b ∉ l κ' := fun hb =>
  hκ (h.apart κ' κ b hb (hl ▸ mem_append_right _ mem_cons_self))

/-- A page is in no list once it is taken out of the one that it is in. -/
theorem mem_taken (κ' : Kind) (x : ℕ) :
    x ∈ Function.update l κ (l₁ ++ l₂) κ' ↔ x ∈ l κ' ∧ x ≠ b := by
  by_cases hκ : κ' = κ
  · have hnodup := (h.isList κ).nodup
    grind
  · rw [update_of_ne hκ]
    exact ⟨fun hx => ⟨hx, fun he => h.not_mem_of_eq hl hκ (he ▸ hx)⟩, And.left⟩

/-- A page is taken out of the list that it is in. -/
theorem remove (n : ℕ) :
    Lists (links.remove (sc.list κ).head b).2
      (sc.setList κ ⟨(links.remove (sc.list κ).head b).1, n⟩) (Function.update l κ (l₁ ++ l₂)) := by
  have hlist := h.isList κ
  rw [hl] at hlist
  refine h.update hlist.remove (b := b) (fun a ha => .inl ?_) (fun κ' hκ => h.not_mem_of_eq hl hκ)
    fun a ha _ => hlist.remove_of_not_mem (hl ▸ ha)
  rw [hl]
  rcases mem_append.mp ha with ha | ha
  · exact mem_append_left _ ha
  · exact mem_append_right _ (mem_cons_of_mem _ ha)

end

/-- The first page of a list is taken off. -/
theorem pop (hl : l κ = b :: l₂) (n : ℕ) :
    Lists (links.pop b).2 (sc.setList κ ⟨(links.pop b).1, n⟩) (Function.update l κ l₂) := by
  have hlist := h.isList κ
  have hsplit : l κ = [] ++ b :: l₂ := hl
  rw [hl] at hlist
  refine h.update hlist.pop (b := b) (fun a ha => .inl ?_)
    (fun κ' hκ => h.not_mem_of_eq hsplit hκ) fun a ha _ => hlist.pop_of_not_mem (hl ▸ ha)
  rw [hl]
  exact mem_cons_of_mem _ ha

end

/-- A page goes from the list that it is in to another one. -/
theorem move {mem : Memory} (h : Lists mem.links sc l) (hne : target ≠ source)
    (hl : l source = l₁ ++ b :: l₂) :
    Lists (sc.move mem source target b).2.links (sc.move mem source target b).1
      (Function.update (Function.update l source (l₁ ++ l₂)) target (b :: l target)) := by
  have hremove := h.remove hl (wrapSub (sc.list source).elements 1)
  have hinsert := fun n => hremove.insert target (fun κ' hb => ((h.mem_taken hl κ' b).mp hb).2 rfl)
    (Links.next_remove_self mem.links (sc.list source).head b) n
  rw [update_of_ne hne] at hinsert
  exact hinsert _

theorem move_of_not_mem (mem : Memory) (h : Lists mem.links sc l) (hne : target ≠ source)
    (hl : l source = l₁ ++ b :: l₂) {a : ℕ} (ha : ∀ κ, a ∉ l κ) :
    (sc.move mem source target b).2.links.next a = mem.links.next a ∧
      (sc.move mem source target b).2.links.prev a = mem.links.prev a := by
  have hlist := h.isList source
  have has := ha source
  rw [hl] at hlist has
  have hab : a ≠ b := fun he => has (he ▸ mem_append_right _ mem_cons_self)
  have htarget := h.isList target
  have hframe := Links.insertFront_of_not_mem (L := (mem.links.remove (sc.list source).head b).2)
    htarget.head_eq (not_or.mpr ⟨hab, ha target⟩ ∘ mem_cons.mp)
  obtain ⟨hnext, hprev⟩ := hlist.remove_of_not_mem has
  rw [SCAllocator.move, SCAllocator.list_setList_of_ne sc _ hne]
  exact ⟨hframe.1.trans hnext, hframe.2.trans hprev⟩

end Lists

/-- The pages of a size class. -/
def Pages (l : Kind → List ℕ) (b : ℕ) : Prop := ∃ κ, b ∈ l κ

section Membership

variable {l : Kind → List ℕ} {κ : Kind} {b : ℕ} {l₁ l₂ : List ℕ}

theorem mem_put (κ' : Kind) (x : ℕ) : x ∈ update l κ (b :: l κ) κ' ↔ κ' = κ ∧ x = b ∨ x ∈ l κ' := by
  by_cases hκ : κ' = κ <;> simp [hκ]

theorem pages_put (x : ℕ) : Pages (update l κ (b :: l κ)) x ↔ x = b ∨ Pages l x := by
  simp only [Pages, mem_put, exists_or, exists_eq_left]

variable {links : Links ℕ} {sc : SCAllocator}

theorem Lists.pages_taken (h : Lists links sc l) (hl : l κ = l₁ ++ b :: l₂) (x : ℕ) :
    Pages (Function.update l κ (l₁ ++ l₂)) x ↔ Pages l x ∧ x ≠ b := by
  simp only [Pages, h.mem_taken hl, exists_and_right]

/-- A page has gone from one list to another. -/
theorem Lists.mem_moved (h : Lists links sc l) (hne : target ≠ source)
    (hl : l source = l₁ ++ b :: l₂) (κ : Kind) (x : ℕ) :
    x ∈ Function.update (Function.update l source (l₁ ++ l₂)) target (b :: l target) κ ↔
      κ = target ∧ x = b ∨ x ∈ l κ ∧ x ≠ b := by
  rw [← h.mem_taken hl, ← update_of_ne hne (l₁ ++ l₂) l, mem_put]

theorem Lists.pages_moved (h : Lists links sc l) (hne : target ≠ source)
    (hl : l source = l₁ ++ b :: l₂) (x : ℕ) :
    Pages (Function.update (Function.update l source (l₁ ++ l₂)) target (b :: l target)) x ↔
      Pages l x := by
  have hb : Pages l b := ⟨source, hl ▸ mem_append_right _ mem_cons_self⟩
  rw [← update_of_ne hne (l₁ ++ l₂) l, pages_put, h.pages_taken hl]
  by_cases hx : x = b <;> simp [hx, hb]

end Membership

end Maios.Slab
