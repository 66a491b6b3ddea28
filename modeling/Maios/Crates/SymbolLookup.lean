import Mathlib.Algebra.Group.Nat.Even
import Mathlib.Data.List.Perm.Basic

/-!
# Looking up a symbol by a prefix of its name

A namespace has a map of symbols and, unless it is the last one, a recursive namespace that is
searched as well. `get_symbol_starting_with` takes the symbol of a namespace if it is the only match
there, and combines it with the answer of the recursive namespace by an exclusive or. No match and
several matches are the same answer `None`, so that matches which are not single are not counted at
all, and those which are single are counted modulo two.

The map is the trie of a library. Of `iter_prefix` only its law is used: the entries whose key starts
with the prefix come, each once and in any order.

## Main results

* `isSome_internal_iff`: there is an answer if an odd number of namespaces has a single match.
* `symbol_unique_iff`: when the answer is the only symbol with the prefix.
-/

namespace Maios.Crates

universe u

/-- Bytes of a name. -/
abbrev Name := List UInt8

def ascii (s : String) : Name := s.toList.map fun c => UInt8.ofNat c.toNat

/-- The entries whose key starts with the prefix. -/
def withPrefix {σ : Type u} (symbolPrefix : Name) (entries : List (Name × σ)) : List (Name × σ) :=
  entries.filter fun e => symbolPrefix.isPrefixOf e.1

/-- A `Trie` from names to `σ`, as far as it is searched for a prefix. -/
structure Trie (σ : Type u) where
  Map : Type u
  entries : Map → List (Name × σ)
  iterPrefix : Map → Name → List (Name × σ)
  iterPrefix_perm : ∀ map symbolPrefix,
    (iterPrefix map symbolPrefix).Perm (withPrefix symbolPrefix (entries map))

/-- A list of entries that is searched from its start. -/
def Trie.ofList (σ : Type u) : Trie σ where
  Map := List (Name × σ)
  entries := id
  iterPrefix map symbolPrefix := withPrefix symbolPrefix map
  iterPrefix_perm _ _ := .refl _

variable {σ : Type u}

/-- The first item, if it is the only one. -/
def onlyItem : List (Name × σ) → Option σ
  | [] => none
  | item :: rest => if rest.isEmpty then some item.2 else none

/-- `Option::xor` -/
def xorOption : Option σ → Option σ → Option σ
  | some a, none => some a
  | none, some b => some b
  | _, _ => none

/-- `get_symbol_starting_with_internal`, on the map of a namespace, followed by those of its recursive
namespaces. -/
def getSymbolStartingWithInternal (T : Trie σ) (symbolPrefix : Name) : List T.Map → Option σ
  | [] => none
  | map :: recursiveNamespace =>
    xorOption (onlyItem (T.iterPrefix map symbolPrefix))
      (getSymbolStartingWithInternal T symbolPrefix recursiveNamespace)

/-- `get_symbol_starting_with`, with `none` for the empty weak reference. -/
def getSymbolStartingWith (T : Trie σ) (chain : List T.Map) (symbolPrefix : Name) : Option σ :=
  getSymbolStartingWithInternal T symbolPrefix chain

/-- All the symbols of the chain that start with the prefix. -/
def matching (T : Trie σ) (chain : List T.Map) (symbolPrefix : Name) : List (Name × σ) :=
  chain.flatMap fun map => withPrefix symbolPrefix (T.entries map)

/-- How many namespaces have exactly one match. -/
def singles (T : Trie σ) (chain : List T.Map) (symbolPrefix : Name) : ℕ :=
  chain.countP fun map => (withPrefix symbolPrefix (T.entries map)).length = 1

@[simp] theorem onlyItem_isSome_iff {l : List (Name × σ)} :
    (onlyItem l).isSome ↔ l.length = 1 := by
  rcases l with _ | ⟨a, _ | ⟨b, l⟩⟩ <;> simp [onlyItem]

/-- The order of the items does not matter. -/
theorem onlyItem_perm {l l' : List (Name × σ)} (h : l.Perm l') : onlyItem l = onlyItem l' := by
  rcases l with _ | ⟨a, _ | ⟨b, l⟩⟩
  · rw [h.nil_eq]
  · rw [h.singleton_eq]
  · have hlen := h.length_eq
    rcases l' with _ | ⟨a', _ | ⟨b', l'⟩⟩
    · simp at hlen
    · simp at hlen
    · rfl

theorem xorOption_isSome_iff {a b : Option σ} :
    (xorOption a b).isSome ↔ (a.isSome ↔ ¬ b.isSome) := by
  cases a <;> cases b <;> simp [xorOption]

variable (T : Trie σ) (chain : List T.Map) (symbolPrefix : Name)

/-- What the search of a namespace comes to, by the entries of its map. -/
theorem internal_cons (map : T.Map) :
    getSymbolStartingWithInternal T symbolPrefix (map :: chain) =
      xorOption (onlyItem (withPrefix symbolPrefix (T.entries map)))
        (getSymbolStartingWithInternal T symbolPrefix chain) := by
  rw [getSymbolStartingWithInternal, onlyItem_perm (T.iterPrefix_perm map symbolPrefix)]

/-- Single matches are counted modulo two. -/
theorem isSome_internal_iff :
    (getSymbolStartingWithInternal T symbolPrefix chain).isSome ↔
      ¬ Even (singles T chain symbolPrefix) := by
  induction chain with
  | nil => simp [getSymbolStartingWithInternal, singles]
  | cons map chain ih =>
    simp only [singles] at ih ⊢
    rw [internal_cons, xorOption_isSome_iff, ih]
    by_cases h : (withPrefix symbolPrefix (T.entries map)).length = 1 <;>
      simp [h, Nat.even_add_one]

/-- A single match over the whole chain is found. -/
theorem internal_of_length_matching (h : (matching T chain symbolPrefix).length ≤ 1) :
    getSymbolStartingWithInternal T symbolPrefix chain =
      onlyItem (matching T chain symbolPrefix) := by
  induction chain with
  | nil => rfl
  | cons map chain ih =>
    have hcons : matching T (map :: chain) symbolPrefix =
      withPrefix symbolPrefix (T.entries map) ++ matching T chain symbolPrefix := List.flatMap_cons
    rw [hcons, List.length_append] at h
    rw [hcons, internal_cons, ih (by omega)]
    rcases hfound : withPrefix symbolPrefix (T.entries map) with _ | ⟨item, rest⟩
    · rw [List.nil_append]
      cases onlyItem (matching T chain symbolPrefix) <;> rfl
    · have hnil : matching T chain symbolPrefix = [] := by
        refine List.length_eq_zero_iff.mp ?_
        rw [hfound, List.length_cons] at h
        omega
      rw [hnil, List.append_nil]
      cases onlyItem (item :: rest) <;> rfl

/-- **The answer is the only symbol with the prefix if and only if an even number of namespaces has a
single match, or there is one match in all.** -/
theorem symbol_unique_iff :
    getSymbolStartingWith T chain symbolPrefix = onlyItem (matching T chain symbolPrefix) ↔
      Even (singles T chain symbolPrefix) ∨ (matching T chain symbolPrefix).length = 1 := by
  have hsome := isSome_internal_iff T chain symbolPrefix
  constructor
  · intro h
    rw [getSymbolStartingWith] at h
    rw [h, onlyItem_isSome_iff] at hsome
    exact or_iff_not_imp_left.mpr hsome.mpr
  · intro h
    by_cases hone : (matching T chain symbolPrefix).length = 1
    · exact internal_of_length_matching T chain symbolPrefix (Nat.le_of_eq hone)
    · have hnone := mt hsome.mp (not_not_intro (h.resolve_right hone))
      rw [← onlyItem_isSome_iff, Option.not_isSome_iff_eq_none] at hone
      rw [hone]
      exact Option.not_isSome_iff_eq_none.mp hnone

/-- Two matches in a namespace and one in the next: the latter is returned. -/
theorem symbol_not_unique :
    getSymbolStartingWith (Trie.ofList ℕ)
        [[(ascii "foo::a", 1), (ascii "foo::b", 2)], [(ascii "foo::c", 3)]] (ascii "foo::") =
      some 3 ∧
      (matching (Trie.ofList ℕ)
        [[(ascii "foo::a", 1), (ascii "foo::b", 2)], [(ascii "foo::c", 3)]]
        (ascii "foo::")).length = 3 := by
  decide

end Maios.Crates
