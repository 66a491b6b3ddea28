import Mathlib.Logic.Function.Basic
import Maios.Library.Run

/-!
# The tree of the virtual file system

A directory has a map from names to its children, and every node a weak reference to its parent.
Both are changed by hand: whoever makes a node gives it its parent, and `insert` and `remove` take
away the parent of the node that leaves the directory. The path of a node is built upward along the
parents and resolved downward along the maps.

Nodes are numbered in the order in which they are made. Names and paths are lists of characters. The
index of prefixes, which only serves to find crate files faster, is left out.

## Main results

* `tree_coherent` — along every run that inserts no node that is in a directory
-/

namespace Maios.Vfs

open Function List Nat Option

abbrev Name := List Char

/-- What callers use as names. -/
structure Name.Valid (name : Name) : Prop where
  nonempty : name ≠ []
  noSlash : '/' ∉ name
  noDot : name ≠ ['.']
  noDotDot : name ≠ ['.', '.']

/-- A name of which this is known. -/
structure FileName where
  name : Name
  valid : name.Valid

/-- A file has no children. -/
structure Node where
  name : Name
  parent : Option ℕ
  children : Option (Name → Option ℕ)

/-- The nodes made so far. -/
structure Tree where
  node : ℕ → Node
  count : ℕ

/-- The root is its own parent, as `RootDirectory::get_parent_dir` returns it. -/
def root : ℕ := 0

def Tree.init : Tree := ⟨fun _ => ⟨[], some root, some fun _ => none⟩, 1⟩

namespace Tree

variable (s : Tree)

/-- `Directory::get`. -/
def child (d : ℕ) (name : Name) : Option ℕ := (s.node d).children.bind (· name)

def isDir (x : ℕ) : Bool := (s.node x).children.isSome

def setNode (x : ℕ) (node : Node) : Tree := { s with node := Function.update s.node x node }

def setParent (x : ℕ) (parent : Option ℕ) : Tree :=
  s.setNode x { s.node x with parent := parent }

def setChild (d : ℕ) (name : Name) (x : Option ℕ) : Tree :=
  s.setNode d { s.node d with children := (s.node d).children.map (Function.update · name x) }

/-- `Directory::insert`: the state and the node that is replaced, whose parent is taken away. -/
def insert (d x : ℕ) : Tree × Option ℕ :=
  let name := (s.node x).name
  let s' := s.setChild d name (some x)
  match s.child d name with
  | some old => (s'.setParent old none, some old)
  | none => (s', none)

/-- `Directory::remove`, by the name of the node. The root does not remove itself. -/
def remove (d x : ℕ) : Tree × Option ℕ :=
  if d = root ∧ x = root then (s, none)
  else
    let name := (s.node x).name
    match s.child d name with
    | some old => ((s.setChild d name none).setParent old none, some old)
    | none => (s, none)

/-- A new node with its parent set, which is not yet in the directory. -/
def newNode (name : Name) (d : ℕ) (dir : Bool) : Tree :=
  { s.setNode s.count ⟨name, some d, if dir then some fun _ => none else none⟩ with
    count := s.count + 1 }

end Tree

/-- `VFSDirectory::create`, the making of a file, and the calls of `insert` and `remove`. -/
inductive Op
  | create (name : FileName) (d : ℕ)
  | createFile (name : FileName) (d : ℕ)
  | insert (d x : ℕ)
  | remove (d x : ℕ)

/-- One operation, on nodes that have been made. A node given to `insert` has its parent set to the
directory before, as all callers do; it is not the root, whose name is empty. -/
def step (s : Tree) : Op → Tree
  | .create name d =>
    if d < s.count ∧ s.isDir d then ((s.newNode name.name d true).insert d s.count).1 else s
  | .createFile name d =>
    if d < s.count ∧ s.isDir d then ((s.newNode name.name d false).insert d s.count).1 else s
  | .insert d x =>
    if d < s.count ∧ s.isDir d ∧ x < s.count ∧ x ≠ root then
      ((s.setParent x (some d)).insert d x).1
    else s
  | .remove d x => if d < s.count ∧ s.isDir d ∧ x < s.count then (s.remove d x).1 else s

/-! ### Paths -/

/-- `FsNode::get_absolute_path`, with a bound on the depth; the one of the root is fixed. -/
def Tree.getAbsolutePath (s : Tree) : ℕ → ℕ → Option (List Char)
  | 0, _ => none
  | fuel + 1, x =>
    if x = root then some ['/']
    else
      match (s.node x).parent with
      | none => some (s.node x).name
      | some d =>
        (s.getAbsolutePath fuel d).map fun parentPath =>
          if parentPath = ['/'] then parentPath ++ (s.node x).name
          else parentPath ++ ['/'] ++ (s.node x).name

inductive Component
  | rootDir
  | curDir
  | parentDir
  | normal (name : Name)
deriving DecidableEq, Repr

def component (part : Name) : Option Component :=
  if part = ['.'] ∨ part = [] then none
  else if part = ['.', '.'] then some .parentDir
  else some (.normal part)

/-- The components after the start of a path. -/
def bodyComponents (path : List Char) : List Component := (path.splitOn '/').filterMap component

def components (path : List Char) : List Component :=
  match path with
  | '/' :: rest => .rootDir :: bodyComponents rest
  | path =>
    if path = ['.'] ∨ path.take 2 = ['.', '/'] then .curDir :: bodyComponents (path.drop 1)
    else bodyComponents path

/-- The loop of `Path::get`. -/
def Tree.walk (s : Tree) : ℕ → List Component → Option ℕ
  | current, [] => some current
  | _, .rootDir :: rest => s.walk root rest
  | current, .curDir :: rest => s.walk current rest
  | current, .parentDir :: rest => (s.node current).parent.bind fun d => s.walk d rest
  | current, .normal name :: rest =>
    match s.child current name with
    | none => none
    | some x => if rest = [] then some x else if s.isDir x then s.walk x rest else none

def Tree.get (s : Tree) (path : List Char) (cwd : ℕ) : Option ℕ := s.walk cwd (components path)

def Tree.getAbsolute (s : Tree) (path : List Char) : Option ℕ :=
  if path.head? = some '/' then s.get path root else none

/-! ### Coherence -/

/-- The node is reached from the root through children of these names. -/
inductive ReachedBy (s : Tree) : List Name → ℕ → Prop
  | root : ReachedBy s [] root
  | child {names : List Name} {d : ℕ} {name : Name} {x : ℕ} (h : ReachedBy s names d)
      (hchild : s.child d name = some x) : ReachedBy s (names ++ [name]) x

/-- Every child of a directory that is reached from the root has it as its parent, and the path of a
node that is reached from the root leads to that node. -/
structure Coherent (s : Tree) : Prop where
  parent : ∀ names d name x, ReachedBy s names d → s.child d name = some x →
    (s.node x).parent = some d
  path : ∀ names x, ReachedBy s names x → ∃ n path, (∀ fuel ≥ n,
    s.getAbsolutePath fuel x = some path) ∧ s.getAbsolute path = some x

/-- A node that is given to `insert` is in no directory. -/
def Detached (s : Tree) (op : Op) : Prop :=
  ∀ d x, op = .insert d x → ∀ c name, s.child c name ≠ some x

/-- What every operation keeps, for all directories, reached or not: a child has a name that callers
use, under which it is in its parent. -/
structure Inv (s : Tree) : Prop where
  rootMade : root < s.count
  rootDir : s.isDir root = true
  named : ∀ x, root < x → x < s.count → (s.node x).name.Valid
  child : ∀ d name x, s.child d name = some x →
    root < x ∧ x < s.count ∧ (s.node x).name = name ∧ (s.node x).parent = some d

/-! ### What the operations change -/

section Frame

variable {s : Tree} {x d c : ℕ} {p : Option ℕ} {name nm : Name} {v : Option ℕ}

variable (y : ℕ)

@[simp] theorem name_setParent : ((s.setParent x p).node y).name = (s.node y).name := by
  obtain rfl | h := eq_or_ne y x
  · simp [Tree.setParent, Tree.setNode]
  · simp [Tree.setParent, Tree.setNode, update_of_ne h]

@[simp] theorem children_setParent : ((s.setParent x p).node y).children = (s.node y).children := by
  obtain rfl | h := eq_or_ne y x
  · simp [Tree.setParent, Tree.setNode]
  · simp [Tree.setParent, Tree.setNode, update_of_ne h]

theorem parent_setParent :
    ((s.setParent x p).node y).parent = if y = x then p else (s.node y).parent := by
  obtain rfl | h := eq_or_ne y x
  · simp [Tree.setParent, Tree.setNode]
  · simp [Tree.setParent, Tree.setNode, h]

@[simp] theorem name_setChild : ((s.setChild d name v).node y).name = (s.node y).name := by
  obtain rfl | h := eq_or_ne y d
  · simp [Tree.setChild, Tree.setNode]
  · simp [Tree.setChild, Tree.setNode, update_of_ne h]

@[simp] theorem parent_setChild : ((s.setChild d name v).node y).parent = (s.node y).parent := by
  obtain rfl | h := eq_or_ne y d
  · simp [Tree.setChild, Tree.setNode]
  · simp [Tree.setChild, Tree.setNode, update_of_ne h]

@[simp] theorem child_setParent : (s.setParent x p).child c nm = s.child c nm := by
  rw [Tree.child, Tree.child, children_setParent]

@[simp] theorem isDir_setParent : (s.setParent x p).isDir c = s.isDir c := by
  rw [Tree.isDir, Tree.isDir, children_setParent]

theorem child_setChild (hd : s.isDir d = true) :
    (s.setChild d name v).child c nm = if c = d ∧ nm = name then v else s.child c nm := by
  obtain ⟨children, hchildren⟩ := isSome_iff_exists.mp hd
  obtain rfl | hc := eq_or_ne c d
  · by_cases hn : nm = name <;> simp [Tree.child, Tree.setChild, Tree.setNode, hchildren, hn]
  · simp [Tree.child, Tree.setChild, Tree.setNode, hc]

@[simp] theorem isDir_setChild : (s.setChild d name v).isDir c = s.isDir c := by
  obtain rfl | hc := eq_or_ne c d
  · simp [Tree.isDir, Tree.setChild, Tree.setNode]
  · simp [Tree.isDir, Tree.setChild, Tree.setNode, update_of_ne hc]

theorem node_newNode (dir : Bool) (y : ℕ) :
    (s.newNode name d dir).node y = if y = s.count then
      ⟨name, some d, if dir then some fun _ => none else none⟩ else s.node y := by
  by_cases h : y = s.count <;> simp [Tree.newNode, Tree.setNode, h]

end Frame

/-! ### The invariant -/

section Invariant

variable {s : Tree} {d x : ℕ}

theorem inv_init : Inv Tree.init where
  rootMade := Nat.one_pos
  rootDir := rfl
  named := fun x hpos hlt => absurd hlt (Nat.not_lt.mpr hpos)
  child := fun d name x h => by simp [Tree.init, Tree.child] at h

section

variable (h : Inv s) (name : FileName)

include h

/-- A node is in one place only. -/
theorem Inv.unique {c c' : ℕ} {name name' : Name} (hc : s.child c name = some x)
    (hc' : s.child c' name' = some x) : c = c' ∧ name = name' := by
  obtain ⟨-, -, hname, hparent⟩ := h.child c name x hc
  obtain ⟨-, -, hname', hparent'⟩ := h.child c' name' x hc'
  exact ⟨some.inj (hparent.symm.trans hparent'), hname.symm.trans hname'⟩

/-- The parent of a node that is in no directory may be set to anything. -/
theorem Inv.setParent (hdet : ∀ c name, s.child c name ≠ some x) (p : Option ℕ) :
    Inv (s.setParent x p) where
  rootMade := h.rootMade
  rootDir := by
    rw [isDir_setParent]
    exact h.rootDir
  named := fun y hpos hlt => by
    rw [name_setParent]
    exact h.named y hpos hlt
  child := fun c name y hy => by
    rw [child_setParent] at hy
    have hne : y ≠ x := fun heq => hdet c name (heq ▸ hy)
    rw [name_setParent, parent_setParent, if_neg hne]
    exact h.child c name y hy

/-- A child leaves its place: its entry is replaced, by nothing or by a node that is in no directory
and has the directory as its parent. -/
theorem Inv.replace (hd : s.isDir d = true) (name : Name) (v : Option ℕ)
    (hv : ∀ x, v = some x → root < x ∧ x < s.count ∧ (s.node x).name = name ∧
      (s.node x).parent = some d ∧ ∀ c nm, s.child c nm ≠ some x) :
    Inv (s.setChild d name v) ∧
      ∀ old, s.child d name = some old → ∀ c nm, (s.setChild d name v).child c nm ≠ some old := by
  refine ⟨⟨h.rootMade, ?_, fun y hpos hlt => ?_, fun c nm y hy => ?_⟩, fun old hold c nm hy => ?_⟩
  · rw [isDir_setChild]
    exact h.rootDir
  · rw [name_setChild]
    exact h.named y hpos hlt
  · rw [child_setChild hd] at hy
    rw [name_setChild, parent_setChild]
    split_ifs at hy with hat
    · obtain ⟨rfl, rfl⟩ := hat
      obtain ⟨hpos, hlt, hname, hparent, -⟩ := hv y hy
      exact ⟨hpos, hlt, hname, hparent⟩
    · exact h.child c nm y hy
  · rw [child_setChild hd] at hy
    split_ifs at hy with hat
    · exact (hv old hy).2.2.2.2 d name hold
    · obtain ⟨hc, hn⟩ := h.unique hy hold
      exact hat ⟨hc, hn⟩

theorem Inv.insert (hd : s.isDir d = true) (hpos : root < x) (hlt : x < s.count)
    (hparent : (s.node x).parent = some d) (hdet : ∀ c name, s.child c name ≠ some x) :
    Inv (s.insert d x).1 := by
  obtain ⟨hinv, hold⟩ := h.replace hd (s.node x).name (some x) fun y hy => by
    cases hy
    exact ⟨hpos, hlt, rfl, hparent, hdet⟩
  rw [Tree.insert]
  cases hchild : s.child d (s.node x).name with
  | none => exact hinv
  | some old => exact hinv.setParent (hold old hchild) none

theorem Inv.remove (hd : s.isDir d = true) : Inv (s.remove d x).1 := by
  rw [Tree.remove]
  split_ifs
  · exact h
  · obtain ⟨hinv, hold⟩ := h.replace hd (s.node x).name none fun y hy => by cases hy
    dsimp only
    cases hchild : s.child d (s.node x).name with
    | none => exact h
    | some old => exact hinv.setParent (hold old hchild) none

/-- A new node is in no directory. -/
theorem Inv.newNode (d : ℕ) (dir : Bool) :
    Inv (s.newNode name.name d dir) ∧
      ∀ c nm, (s.newNode name.name d dir).child c nm ≠ some s.count := by
  have hold : ∀ y, y < s.count → (s.newNode name.name d dir).node y = s.node y := fun y hy => by
    rw [node_newNode, if_neg (Nat.ne_of_lt hy)]
  have hchild : ∀ c nm y, (s.newNode name.name d dir).child c nm = some y →
      s.child c nm = some y := by
    intro c nm y hy
    rw [Tree.child, node_newNode] at hy
    by_cases hc : c = s.count
    · rw [if_pos hc] at hy
      cases dir <;> cases hy
    · rwa [if_neg hc] at hy
  refine ⟨⟨lt_succ_of_lt h.rootMade, ?_, fun y hpos hlt => ?_, fun c nm y hy => ?_⟩,
    fun c nm hy => ?_⟩
  · rw [Tree.isDir, hold root h.rootMade]
    exact h.rootDir
  · rw [node_newNode]
    by_cases hy : y = s.count
    · rw [if_pos hy]
      exact name.valid
    · rw [if_neg hy]
      exact h.named y hpos (Nat.lt_of_le_of_ne (Nat.le_of_lt_succ hlt) hy)
  · obtain ⟨hpos, hlt, hname, hparent⟩ := h.child c nm y (hchild c nm y hy)
    rw [hold y hlt]
    exact ⟨hpos, lt_succ_of_lt hlt, hname, hparent⟩
  · exact Nat.lt_irrefl _ (h.child c nm _ (hchild c nm _ hy)).2.1

theorem Inv.create (hd : d < s.count) (hdir : s.isDir d = true) (dir : Bool) :
    Inv ((s.newNode name.name d dir).insert d s.count).1 := by
  obtain ⟨hinv, hdet⟩ := h.newNode name d dir
  refine hinv.insert ?_ h.rootMade (lt_succ_self _) ?_ hdet
  · rwa [Tree.isDir, node_newNode, if_neg (Nat.ne_of_lt hd)]
  · rw [node_newNode, if_pos rfl]

end

/-- What every operation keeps. -/
theorem Inv.step (s : Tree) (op : Op) (h : Inv s) (hdet : Detached s op) : Inv (step s op) := by
  cases op with rw [Vfs.step]
  | create name d =>
    split_ifs with hd
    · exact h.create name hd.1 hd.2 true
    · exact h
  | createFile name d =>
    split_ifs with hd
    · exact h.create name hd.1 hd.2 false
    · exact h
  | insert d x =>
    split_ifs with hd
    · obtain ⟨-, hdir, hlt, hne⟩ := hd
      have hdet' := hdet d x rfl
      refine (h.setParent hdet' (some d)).insert ?_ (Nat.pos_of_ne_zero hne) hlt ?_ fun c nm => ?_
      · rwa [isDir_setParent]
      · rw [parent_setParent, if_pos rfl]
      · rw [child_setParent]
        exact hdet' c nm
    · exact h
  | remove d x =>
    split_ifs with hd
    · exact h.remove hd.2.1
    · exact h

end Invariant

/-! ### Paths of reached nodes -/

/-- The path with the names. -/
def pathOf (names : List Name) : List Char := '/' :: ['/'].intercalate names

variable {names : List Name}

theorem components_pathOf (h : ∀ name ∈ names, name.Valid) :
    components (pathOf names) = .rootDir :: names.map .normal := by
  have hcomponent : ∀ name : Name, name.Valid → component name = some (.normal name) := by
    intro name hname
    rw [component, if_neg (not_or.mpr ⟨hname.noDot, hname.nonempty⟩), if_neg hname.noDotDot]
  rw [pathOf, components, bodyComponents]
  congr 1
  cases names with
  | nil => rfl
  | cons name names =>
    rw [splitOn_intercalate _ (fun l hl => (h l hl).noSlash) (cons_ne_nil _ _),
      filterMap_congr fun name hname => hcomponent name (h name hname),
      filterMap_eq_map']

theorem intercalate_concat (h : names ≠ []) (name : Name) :
    ['/'].intercalate (names ++ [name]) = ['/'].intercalate names ++ ['/'] ++ name := by
  induction names with
  | nil => exact absurd rfl h
  | cons first rest ih =>
    cases rest with
    | nil => rw [singleton_append, intercalate_cons_cons, intercalate_singleton,
        intercalate_singleton]
    | cons second rest =>
      have hrest := ih (cons_ne_nil _ _)
      rw [cons_append, cons_append, intercalate_cons_cons, ← cons_append,
        hrest, intercalate_cons_cons]
      simp only [append_assoc]

/-- The path of a child, as it is put together from the path of its parent. -/
theorem pathOf_concat (h : ∀ name ∈ names, name.Valid) (name : Name) :
    (if pathOf names = ['/'] then pathOf names ++ name else pathOf names ++ ['/'] ++ name) =
      pathOf (names ++ [name]) := by
  cases names with
  | nil =>
    have hroot : pathOf [] = ['/'] := rfl
    rw [if_pos hroot, hroot, nil_append, pathOf, intercalate_singleton, singleton_append]
  | cons first rest => ?_
  have hne : pathOf (first :: rest) ≠ ['/'] := by
    intro heq
    have hnil : ['/'].intercalate (first :: rest) = [] := cons.inj heq |>.2
    have hfirst := (h first mem_cons_self).nonempty
    cases rest with
    | nil => exact hfirst (by rwa [intercalate_singleton] at hnil)
    | cons second rest =>
      simp at hnil
  rw [if_neg hne, pathOf, pathOf, intercalate_concat (cons_ne_nil _ _), cons_append, cons_append]

section Reached

variable {s : Tree} {names : List Name} {x : ℕ}

theorem isDir_of_child {d : ℕ} {name : Name} (h : s.child d name = some x) : s.isDir d = true := by
  obtain ⟨children, hchildren, -⟩ := bind_eq_some_iff.mp h
  exact isSome_iff_exists.mpr ⟨children, hchildren⟩

theorem ReachedBy.valid (hinv : Inv s) (h : ReachedBy s names x) : ∀ name ∈ names, name.Valid := by
  induction h with
  | root => exact forall_mem_nil _
  | child h hchild ih =>
    obtain ⟨hpos, hlt, hname, -⟩ := hinv.child _ _ _ hchild
    intro name hmem
    rcases mem_append.mp hmem with hold | hnew
    · exact ih name hold
    · rw [mem_singleton.mp hnew, ← hname]
      exact hinv.named _ hpos hlt

/-- Upward: the path of a node has the names by which it is reached. -/
theorem ReachedBy.getAbsolutePath (hinv : Inv s) (h : ReachedBy s names x) {fuel : ℕ}
    (hfuel : names.length < fuel) : s.getAbsolutePath fuel x = some (pathOf names) := by
  induction h generalizing fuel with
  | root =>
    obtain ⟨fuel, rfl⟩ := Nat.exists_eq_add_of_lt hfuel
    rfl
  | @child names d name x h hchild ih =>
    obtain ⟨hpos, -, hname, hparent⟩ := hinv.child _ _ _ hchild
    rw [length_append, length_singleton] at hfuel
    cases fuel with
    | zero => exact absurd hfuel (not_lt_zero _)
    | succ fuel =>
      rw [Tree.getAbsolutePath, if_neg (Nat.ne_of_gt hpos), hparent]
      dsimp only
      rw [ih (lt_of_succ_lt_succ hfuel), map_some, hname, pathOf_concat (h.valid hinv)]

/-- One more name at the end. -/
theorem walk_concat {current d : ℕ} (names : List Name) (name : Name)
    (h : s.walk current (names.map .normal) = some d) (hd : s.isDir d = true) :
    s.walk current (names.map .normal ++ [.normal name]) = s.child d name := by
  induction names generalizing current with
  | nil =>
    obtain rfl := some.inj h
    rw [map_nil, nil_append, Tree.walk]
    cases s.child current name <;> rfl
  | cons first rest ih =>
    rw [map_cons, Tree.walk] at h
    rw [map_cons, cons_append, Tree.walk]
    rcases hfirst : s.child current first with _ | x <;> rw [hfirst] at h
    · cases h
    dsimp only at h ⊢
    rw [if_neg (append_ne_nil_of_right_ne_nil _ (cons_ne_nil _ _))]
    by_cases hlast : rest.map Component.normal = []
    · rw [if_pos hlast] at h
      cases h
      rw [if_pos hd]
      exact ih (by rw [hlast, Tree.walk])
    · rw [if_neg hlast] at h
      split_ifs at h with hdir
      rw [if_pos hdir]
      exact ih h

/-- Downward: the names lead to the node. -/
theorem ReachedBy.walk (h : ReachedBy s names x) :
    s.walk Vfs.root (names.map .normal) = some x := by
  induction h with
  | root => rfl
  | child h hchild ih =>
    rw [map_append, map_singleton, walk_concat _ _ ih (isDir_of_child hchild), hchild]

theorem getAbsolute_pathOf (hinv : Inv s) (h : ReachedBy s names x) :
    s.getAbsolute (pathOf names) = some x := by
  have habsolute : (pathOf names).head? = some '/' := rfl
  rw [Tree.getAbsolute, if_pos habsolute, Tree.get, components_pathOf (h.valid hinv), Tree.walk,
    h.walk]

theorem Inv.coherent (h : Inv s) : Coherent s where
  parent := fun _ d name x _ hchild => (h.child d name x hchild).2.2.2
  path := fun names _ hx => ⟨names.length + 1, pathOf names,
    fun _ hfuel => hx.getAbsolutePath h hfuel, getAbsolute_pathOf h hx⟩

end Reached

/-- **The tree stays coherent** as long as no node is given to `insert` that is in a directory. -/
theorem tree_coherent (ops : List Op) (h : Guarded step Detached Tree.init ops) :
    Coherent (run step Tree.init ops) :=
  (h.invariant Inv.step inv_init).coherent

theorem valid_a : Name.Valid ['a'] := ⟨by decide, by decide, by decide, by decide⟩

/-- The name of a directory. -/
def nameA : FileName := ⟨['a'], valid_a⟩

/-- Two directories, one in the other: `/a` and `/a/a`. -/
def twoDirs : List Op := [.create nameA root, .create nameA 1]

/-- The inner directory is removed and inserted again. -/
theorem tree_coherent_reinserted :
    Coherent (run step Tree.init (twoDirs ++ [.remove 1 2, .insert 1 2])) := by
  have hcreate : ∀ s d, Detached s (.create nameA d) := fun s d d' x h => by cases h
  have hremove : ∀ s d x, Detached s (.remove d x) := fun s d x d' x' h => by cases h
  have hguard : Guarded step Detached Tree.init (twoDirs ++ [.remove 1 2]) :=
    ⟨hcreate _ _, hcreate _ _, hremove _ _ _, trivial⟩
  have hinv := hguard.invariant Inv.step inv_init
  refine tree_coherent _ ⟨hcreate _ _, hcreate _ _, hremove _ _ _, ?_, trivial⟩
  -- A node that has been removed has no parent, so it is in no directory.
  intro d x h c name hchild
  obtain ⟨rfl, rfl⟩ : 1 = d ∧ 2 = x := by simpa using h
  have hparent := (hinv.child c name 2 hchild).2.2.2
  have hnone : ((run step Tree.init (twoDirs ++ [.remove 1 2])).node 2).parent = none := by
    decide +kernel
  cases hparent

/-- The inner directory is inserted again without having been removed. It replaces itself and loses
its parent, and its path is then its name alone, which is not absolute. -/
theorem parent_lost :
    ¬ Coherent (run step Tree.init (twoDirs ++ [.insert 1 2])) ∧
      (run step Tree.init (twoDirs ++ [.insert 1 2])).getAbsolutePath 3 2 = some ['a'] := by
  refine ⟨fun h => ?_, by decide +kernel⟩
  have hroot : (run step Tree.init (twoDirs ++ [.insert 1 2])).child root ['a'] = some 1 := by
    decide +kernel
  have hchild : (run step Tree.init (twoDirs ++ [.insert 1 2])).child 1 ['a'] = some 2 := by
    decide +kernel
  have hparent := h.parent [['a']] 1 ['a'] 2 (.child .root hroot) hchild
  exact absurd hparent (by decide +kernel)

end Maios.Vfs
