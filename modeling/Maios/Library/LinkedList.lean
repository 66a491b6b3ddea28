import Mathlib.Data.List.Basic
import Mathlib.Data.List.Nodup
import Mathlib.Logic.Function.Basic
import Mathlib.Tactic.Common

/-!
# Lists linked through their nodes

Nodes carry a link to the next and to the previous node, so that a list is known by its first node
only. Several lists share the nodes' links, each of them through nodes of its own. The operations
write links one by one and never look at the whole list; what they do is right for a list of which
the node at hand is really a member, and says nothing otherwise.

## Main definitions

* `Links`, and `Links.insertFront`, `Links.remove`, `Links.pop`
* `Links.IsList` — the links of the nodes of a list are those of the list

## Main results

* `IsList.insertFront`, `IsList.remove`, `IsList.pop`
* `IsList.congr` — the links of other nodes do not matter
-/

namespace Maios

open Function List Option

/-- The links of all nodes. -/
structure Links (ι : Type*) where
  next : ι → Option ι
  prev : ι → Option ι

namespace Links

variable {ι : Type*}

section Operations

variable [DecidableEq ι]

/-- Put the node in front of the first one. A node that becomes the only one keeps its link to the
next node. -/
def insertFront (L : Links ι) (head : Option ι) (a : ι) : Links ι :=
  match head with
  | none => { L with prev := Function.update L.prev a none }
  | some h =>
    { next := Function.update L.next a (some h)
      prev := Function.update (Function.update L.prev a none) h (some a) }

/-- Take the node out: its neighbours are linked to each other, and where there is no previous one,
the next one is the first. -/
def remove (L : Links ι) (head : Option ι) (a : ι) : Option ι × Links ι :=
  let unlinked : Option ι × Links ι := match L.prev a with
    | none => (L.next a, L)
    | some p => (head, { L with next := Function.update L.next p (L.next a) })
  let joined : Links ι := match unlinked.2.next a with
    | none => unlinked.2
    | some n => { unlinked.2 with prev := Function.update unlinked.2.prev n (unlinked.2.prev a) }
  (unlinked.1, { next := Function.update joined.next a none
                 prev := Function.update joined.prev a none })

/-- Take the first node off the list. -/
def pop (L : Links ι) (a : ι) : Option ι × Links ι :=
  let moved : Links ι := match L.next a with
    | none => L
    | some n => { L with prev := Function.update L.prev n none }
  (L.next a, { next := Function.update moved.next a none
               prev := Function.update moved.prev a none })

end Operations

/-- The links of a row of nodes between a node before and a node behind. -/
def Row (L : Links ι) (q : Option ι) : Option ι → List ι → Prop
  | _, [] => True
  | p, a :: l => L.prev a = p ∧ L.next a = l.head?.or q ∧ Row L q (some a) l

/-- The nodes of the list that starts at `head`. -/
structure IsList (L : Links ι) (head : Option ι) (l : List ι) : Prop where
  head_eq : head = l.head?
  row : Row L none none l
  nodup : l.Nodup

/-- A row depends on the links of its own nodes. -/
theorem Row.congr {L L' : Links ι} {p q : Option ι} {l : List ι} (h : Row L q p l)
    (hsame : ∀ a ∈ l, L'.next a = L.next a ∧ L'.prev a = L.prev a) : Row L' q p l := by
  induction l generalizing p with
  | nil => trivial
  | cons a l ih =>
    obtain ⟨hprev, hnext, hrest⟩ := h
    obtain ⟨hn, hp⟩ := hsame a mem_cons_self
    exact ⟨hp.trans hprev, hn.trans hnext, ih hrest (forall_mem_cons.mp hsame).2⟩

theorem IsList.congr {L L' : Links ι} {head : Option ι} {l : List ι} (h : IsList L head l)
    (hsame : ∀ a ∈ l, L'.next a = L.next a ∧ L'.prev a = L.prev a) : IsList L' head l :=
  ⟨h.head_eq, h.row.congr hsame, h.nodup⟩

/-- Two rows one after the other. -/
theorem row_append {L : Links ι} {p q : Option ι} {l r : List ι} :
    Row L q p (l ++ r) ↔ Row L (r.head?.or q) p l ∧ Row L q (l.getLast?.or p) r := by
  induction l generalizing p with
  | nil => exact (and_iff_right trivial).symm
  | cons a l ih =>
    have hhead : (l ++ r).head?.or q = l.head?.or (r.head?.or q) := by
      cases l <;> rfl
    have hlast : (a :: l).getLast?.or p = l.getLast?.or (some a) := by
      rw [getLast?_cons]
      cases l.getLast? <;> rfl
    rw [cons_append, Row, Row, ih, hhead, hlast, and_assoc, and_assoc]

section Operations

variable [DecidableEq ι] {L : Links ι} {head : Option ι} {a b : ι} {l : List ι}

/-- **A node is put in front.** The node must not be linked to a next one. -/
theorem IsList.insertFront (h : IsList L head l) (ha : a ∉ l) (hnext : L.next a = none) :
    IsList (L.insertFront head a) (some a) (a :: l) := by
  obtain ⟨hhead, hrow, hnodup⟩ := h
  refine ⟨rfl, ?_, nodup_cons.mpr ⟨ha, hnodup⟩⟩
  cases l with
  | nil =>
    subst hhead
    exact ⟨update_self _ _ _, hnext, trivial⟩
  | cons b l => ?_
  subst hhead
  have hab : a ≠ b := fun he => ha (he ▸ mem_cons_self)
  obtain ⟨-, hbnext, hrest⟩ := hrow
  rw [nodup_cons] at hnodup
  refine ⟨?_, update_self _ _ _, update_self _ _ _, ?_, hrest.congr ?_⟩
  · exact (update_of_ne hab _ _).trans (update_self _ _ _)
  · exact (update_of_ne hab.symm _ _).trans hbnext
  · intro c hc
    have hca : c ≠ a := fun he => ha (he ▸ mem_cons_of_mem _ hc)
    have hcb : c ≠ b := fun he => hnodup.1 (he ▸ hc)
    exact ⟨update_of_ne hca _ _,
      (update_of_ne hcb _ _).trans (update_of_ne hca _ _)⟩

theorem insertFront_of_not_mem (hhead : head = l.head?) (hb : b ∉ a :: l) :
    (L.insertFront head a).next b = L.next b ∧ (L.insertFront head a).prev b = L.prev b := by
  rw [mem_cons, not_or] at hb
  subst hhead
  cases l with
  | nil => exact ⟨rfl, update_of_ne hb.1 _ _⟩
  | cons c l =>
    have hbc : b ≠ c := fun he => hb.2 (he ▸ mem_cons_self)
    exact ⟨update_of_ne hb.1 _ _,
      (update_of_ne hbc _ _).trans (update_of_ne hb.1 _ _)⟩

/-- **The first node is taken off.** -/
theorem IsList.pop (h : IsList L head (a :: l)) : IsList (L.pop a).2 (L.pop a).1 l := by
  obtain ⟨-, ⟨hprev, hnext, hrest⟩, hnodup⟩ := h
  rw [nodup_cons] at hnodup
  rw [or_none] at hnext
  rw [Links.pop, hnext]
  refine ⟨rfl, ?_, hnodup.2⟩
  cases l with
  | nil => trivial
  | cons b l => ?_
  have hba : b ≠ a := fun he => hnodup.1 (he ▸ mem_cons_self)
  obtain ⟨-, hbnext, hrest⟩ := hrest
  refine ⟨?_, ?_, hrest.congr fun c hc => ?_⟩
  · exact (update_of_ne hba _ _).trans (update_self _ _ _)
  · exact (update_of_ne hba _ _).trans hbnext
  · have hca : c ≠ a := fun he => hnodup.1 (he ▸ mem_cons_of_mem _ hc)
    have hcb : c ≠ b := fun he => (nodup_cons.mp hnodup.2).1 (he ▸ hc)
    exact ⟨update_of_ne hca _ _,
      (update_of_ne hca _ _).trans (update_of_ne hcb _ _)⟩

theorem next_pop_self (L : Links ι) (a : ι) : (L.pop a).2.next a = none := update_self _ _ _

theorem IsList.pop_of_not_mem (h : IsList L head (a :: l)) (hb : b ∉ a :: l) :
    (L.pop a).2.next b = L.next b ∧ (L.pop a).2.prev b = L.prev b := by
  obtain ⟨-, ⟨-, hnext, -⟩, -⟩ := h
  rw [mem_cons, not_or] at hb
  rw [Links.pop, hnext]
  refine ⟨?_, ?_⟩
  · cases l <;> exact update_of_ne hb.1 _ _
  · cases l with
    | nil => exact update_of_ne hb.1 _ _
    | cons c l =>
      have hbc : b ≠ c := fun he => hb.2 (he ▸ mem_cons_self)
      exact (update_of_ne hb.1 _ _).trans (update_of_ne hbc _ _)

theorem next_remove_self (L : Links ι) (head : Option ι) (a : ι) :
    (L.remove head a).2.next a = none := update_self _ _ _

/-- Which links are written when a node between `p` and `n` is taken out. -/
theorem remove_eq {p n : Option ι} (hprev : L.prev a = p) (hnext : L.next a = n)
    (hpa : p ≠ some a) : L.remove head a =
      (p.elim n fun _ => head,
        { next := update (p.elim L.next fun p => update L.next p n) a none
          prev := update (n.elim L.prev fun n => update L.prev n p) a none }) := by
  rw [remove]
  cases p with
  | none =>
    cases n with
    | none => simp only [hprev, hnext, elim_none]
    | some n => simp only [hprev, hnext, elim_none, elim_some]
  | some p =>
    have hne : a ≠ p := fun he => hpa (congrArg some he.symm)
    cases n with
    | none =>
      simp only [hprev, hnext, update_of_ne hne, elim_none, elim_some]
    | some n => simp only [hprev, hnext, update_of_ne hne, elim_some]

theorem elim_update_apply (f : ι → Option ι) (o x : Option ι) (b : ι) :
    (o.elim f fun c => update f c x) b = if o = some b then x else f b := by
  cases o with
  | none => rw [elim_none, if_neg nofun]
  | some c =>
    rw [elim_some]
    by_cases hbc : c = b
    · rw [if_pos (congrArg some hbc), hbc, update_self]
    · rw [if_neg fun he => hbc (some.inj he), update_of_ne (Ne.symm hbc)]

section Remove

variable {r : List ι}

omit [DecidableEq ι] in
/-- The neighbours of a node in the middle of a list. -/
theorem IsList.neighbours (h : IsList L head (l ++ a :: r)) :
    L.prev a = l.getLast? ∧ L.next a = r.head? ∧ l.getLast? ≠ some a := by
  obtain ⟨-, hright⟩ := row_append.mp h.row
  refine ⟨?_, ?_, fun heq => ?_⟩
  · rw [hright.1, or_none]
  · rw [hright.2.1, or_none]
  · have hmem : a ∈ l := mem_of_getLast? heq
    exact disjoint_of_nodup_append h.nodup hmem mem_cons_self

theorem IsList.next_remove (h : IsList L head (l ++ a :: r)) (hb : b ≠ a) :
    (L.remove head a).2.next b = if l.getLast? = some b then r.head? else L.next b := by
  obtain ⟨hprev, hnext, hne⟩ := h.neighbours
  rw [remove_eq hprev hnext hne]
  exact (update_of_ne hb _ _).trans (elim_update_apply _ _ _ _)

theorem IsList.prev_remove (h : IsList L head (l ++ a :: r)) (hb : b ≠ a) :
    (L.remove head a).2.prev b = if r.head? = some b then l.getLast? else L.prev b := by
  obtain ⟨hprev, hnext, hne⟩ := h.neighbours
  rw [remove_eq hprev hnext hne]
  exact (update_of_ne hb _ _).trans (elim_update_apply _ _ _ _)

/-- **A node is taken out.** -/
theorem IsList.remove (h : IsList L head (l ++ a :: r)) :
    IsList (L.remove head a).2 (L.remove head a).1 (l ++ r) := by
  obtain ⟨hprev, hnext, hne⟩ := h.neighbours
  obtain ⟨hleft, -, -, hright⟩ := row_append.mp h.row
  obtain ⟨hl, har, hdisj⟩ := nodup_append'.mp h.nodup
  rw [nodup_cons] at har
  have hla : ∀ b ∈ l, b ≠ a := fun b hb he => hdisj hb (he ▸ mem_cons_self)
  have hra : ∀ b ∈ r, b ≠ a := fun b hb he => har.1 (he ▸ hb)
  have hlr : ∀ b ∈ l, b ∉ r := fun b hb hbr => hdisj hb (mem_cons_of_mem _ hbr)
  refine ⟨?_, row_append.mpr ⟨?_, ?_⟩, nodup_append'.mpr ⟨hl, har.2, fun b hb => hlr b hb⟩⟩
  · rw [remove_eq hprev hnext hne, h.head_eq]
    cases l with
    | nil => rfl
    | cons c l =>
      rfl
  · -- only the link behind the last node before `a` has changed
    rw [or_none]
    rcases eq_nil_or_concat' l with rfl | ⟨l₀, c, rfl⟩
    · trivial
    obtain ⟨hfront, hcprev, -, -⟩ := row_append.mp hleft
    have hnodup := nodup_append'.mp hl
    have hlast : (l₀ ++ [c]).getLast? = some c := getLast?_concat
    refine row_append.mpr ⟨hfront.congr fun b hb => ?_, ?_, ?_, trivial⟩
    · have hbl : b ∈ l₀ ++ [c] := mem_append_left _ hb
      rw [h.next_remove (hla b hbl), h.prev_remove (hla b hbl), hlast, if_neg, if_neg]
      · exact ⟨rfl, rfl⟩
      · exact fun he => hlr b hbl (mem_of_head? he)
      · exact fun he => hnodup.2.2 hb (some.inj he ▸ mem_singleton_self _)
    · have hcl : c ∈ l₀ ++ [c] := mem_append_right _ (mem_singleton_self c)
      rw [h.prev_remove (hla c hcl), if_neg fun he => hlr c hcl (mem_of_head? he)]
      exact hcprev
    · have hcl : c ∈ l₀ ++ [c] := mem_append_right _ (mem_singleton_self c)
      rw [h.next_remove (hla c hcl), if_pos hlast]
      rfl
  · -- only the link before the first node behind `a` has changed
    rw [or_none]
    cases r with
    | nil => trivial
    | cons c r => ?_
    obtain ⟨-, hcnext, hrest⟩ := hright
    have hnotLast : ∀ b ∈ c :: r, l.getLast? ≠ some b :=
      fun b hb he => hlr b (mem_of_getLast? he) hb
    have hmem : c ∈ c :: r := mem_cons_self
    refine ⟨?_, ?_, hrest.congr fun b hb => ?_⟩
    · rw [h.prev_remove (hra c hmem), if_pos head?_cons]
    · rw [h.next_remove (hra c hmem), if_neg (hnotLast c hmem)]
      exact hcnext
    · have hbr : b ∈ c :: r := mem_cons_of_mem _ hb
      rw [h.next_remove (hra b hbr), h.prev_remove (hra b hbr), if_neg (hnotLast b hbr), if_neg]
      · exact ⟨rfl, rfl⟩
      · exact fun he => (nodup_cons.mp har.2).1 (some.inj he ▸ hb)

theorem IsList.remove_of_not_mem (h : IsList L head (l ++ a :: r)) (hb : b ∉ l ++ a :: r) :
    (L.remove head a).2.next b = L.next b ∧ (L.remove head a).2.prev b = L.prev b := by
  rw [mem_append, mem_cons, not_or, not_or] at hb
  obtain ⟨hbl, hba, hbr⟩ := hb
  rw [h.next_remove hba, h.prev_remove hba, if_neg, if_neg]
  · exact ⟨rfl, rfl⟩
  · exact fun he => hbr (mem_of_head? he)
  · exact fun he => hbl (mem_of_getLast? he)

end Remove

end Operations

end Links

end Maios
