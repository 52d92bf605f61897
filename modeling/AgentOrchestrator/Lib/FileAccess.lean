import AgentOrchestrator.Lib.FileTree

/-!
# Paths and what is done with them

`PurePath` is a parsed path, and `FileTree.resolve`, `mkdirs`, `readText` and `writeText` do with a path what the methods
of Python's `pathlib` of these names do.  Only `put` changes a tree, and never what is a directory.
-/

/-- What the system raises; the loop of links is a `RuntimeError` in `resolve`, the character NUL a `ValueError`. -/
inductive FileError where
  | embeddedNull
  | symlinkLoop
  | noEntry
  | exists
  | notADirectory
  | isADirectory
deriving DecidableEq

/-- A path with its parts, without empty ones and those that stand for the directory itself. -/
structure PurePath where
  absolute : Bool
  parts : List String
deriving DecidableEq

namespace PurePath

def ofString (text : String) : PurePath where
  absolute := IsAbsolute text
  parts := (components text).filter fun name => name ≠ "" ∧ name ≠ "."

/-- `base / path`. -/
def join (base path : PurePath) : PurePath :=
  if path.absolute then path else ⟨base.absolute, base.parts ++ path.parts⟩

end PurePath

/-- `parents`, from the closest on. -/
def parents (p : List String) : List (List String) := (List.range p.length).map fun i => p.take (p.length - 1 - i)

theorem mem_parents {p q : List String} : q ∈ parents p ↔ q <+: p ∧ q ≠ p := by
  unfold parents
  rw [List.mem_map]
  constructor
  · rintro ⟨i, hi, rfl⟩
    rw [List.mem_range] at hi
    refine ⟨List.take_prefix _ _, fun h => ?_⟩
    have hlen := congrArg List.length h
    rw [List.length_take] at hlen
    omega
  · rintro ⟨hle, hne⟩
    have hlt : q.length < p.length := lt_of_le_of_ne hle.length_le fun h => hne (hle.eq_of_length h)
    refine ⟨p.length - 1 - q.length, List.mem_range.2 (by omega), ?_⟩
    rw [List.prefix_iff_eq_take.1 hle, List.length_take]
    congr 1
    omega

namespace FileTree

private theorem ok_bind {ε α β : Type} (a : α) (f : α → Except ε β) : (Except.ok a >>= f) = f a := rfl

variable {t t' : FileTree} {p q : List String}

/-- `os.path.normpath` of an absolute path: `..` takes the name before it away, whatever that stands for. -/
def normpath (names : List String) : List String :=
  names.foldl (fun p name => if name = "" ∨ name = "." then p else if name = ".." then p.dropLast else p ++ [name]) []

/-- The path without `.`, `..` and symbolic links; but behind a loop of links the rest is not resolved, and it is returned
if it does not lead into a loop any more. -/
def resolve (t : FileTree) (path : PurePath) : Except FileError (List String) :=
  if path.parts.any fun name => Char.ofNat 0 ∈ name.toList then .error .embeddedNull
  else
    match t.joinRealpath (if path.absolute then [] else t.cwd) path.parts with
    | .ok p => .ok p
    | .error names =>
      match t.walk [] (normpath names) with
      | none => .error .symlinkLoop
      | some _ => .ok (normpath names)

theorem resolve_of_walk {path : PurePath} (hnul : ∀ name ∈ path.parts, Char.ofNat 0 ∉ name.toList)
    (h : t.walk (if path.absolute then [] else t.cwd) path.parts = some p) : t.resolve path = .ok p := by
  unfold resolve
  rw [if_neg (by simpa using hnul), joinRealpath_of_walk h]

/-! ### Changing a tree -/

/-- There is a directory for the entry, and the entry itself is no directory. -/
def CanPut (t : FileTree) (p : List String) : Prop :=
  IsEntry (p.getLast?.getD "") ∧ t.node p.dropLast = some .dir ∧ t.node p ≠ some .dir

instance (t : FileTree) (p : List String) : Decidable (t.CanPut p) := inferInstanceAs (Decidable (_ ∧ _ ∧ _))

theorem CanPut.ne_nil (h : t.CanPut p) : p ≠ [] := by
  rintro rfl
  exact h.1.1.1 rfl

/-- A directory is not overwritten. -/
theorem CanPut.ne_of_dir (h : t.CanPut p) (hq : t.node q = some .dir) : q ≠ p := by
  rintro rfl
  exact h.2.2 hq

theorem CanPut.names (h : t.CanPut p) : ∀ name ∈ p, IsEntry name := by
  intro name hname
  rw [← List.dropLast_append_getLast h.ne_nil] at hname
  rcases List.mem_append.1 hname with hname | hname
  · exact t.names _ (Dict.mem_keys_iff.2 ⟨.dir, h.2.1⟩) name hname
  · have hlast := h.1
    rw [List.getLast?_eq_some_getLast h.ne_nil] at hlast
    rwa [List.mem_singleton.1 hname]

/-- Add an entry, or replace one that is no directory. -/
def put (t : FileTree) (p : List String) (node : Node) (h : t.CanPut p) : FileTree where
  nodes := t.nodes.insert p node
  cwd := t.cwd
  root_eq := by rw [Dict.get?_insert, if_neg h.ne_nil.symm]; exact t.root_eq
  cwd_eq := by
    rw [Dict.get?_insert, if_neg (h.ne_of_dir t.cwd_eq)]
    exact t.cwd_eq
  parent_eq q hq hne := by
    have hold : t.nodes.get? q.dropLast = some .dir := by
      obtain ⟨node', hnode⟩ := Dict.mem_keys_iff.1 hq
      rw [Dict.get?_insert] at hnode
      split at hnode
      · rename_i heq
        rw [heq]
        exact h.2.1
      · exact t.parent_eq q (Dict.mem_keys_iff.2 ⟨node', hnode⟩) hne
    rw [Dict.get?_insert, if_neg (h.ne_of_dir hold)]
    exact hold
  names q hq := by
    obtain ⟨node', hnode⟩ := Dict.mem_keys_iff.1 hq
    rw [Dict.get?_insert] at hnode
    split at hnode
    · rename_i heq
      rw [heq]
      exact h.names
    · exact t.names q (Dict.mem_keys_iff.2 ⟨node', hnode⟩)

theorem node_put {node : Node} (h : t.CanPut p) (q : List String) :
    (t.put p node h).node q = if q = p then some node else t.node q :=
  Dict.get?_insert ..

/-- `mkdir(parents=True, exist_ok=True)` below the directory `p`, for a path without symbolic links on the way. -/
def mkdirsFrom (t : FileTree) (p : List String) : List String → Except FileError FileTree
  | [] => .ok t
  | name :: rest =>
    match t.node (p ++ [name]) with
    | some .dir => mkdirsFrom t (p ++ [name]) rest
    | some _ => .error (if rest = [] then .exists else .notADirectory)
    | none =>
      if h : t.CanPut (p ++ [name]) then mkdirsFrom (t.put (p ++ [name]) .dir h) (p ++ [name]) rest
      else .error .noEntry

def mkdirs (t : FileTree) (p : List String) : Except FileError FileTree := t.mkdirsFrom [] p

/-- The file at a path, after the symbolic links. -/
def locate (t : FileTree) (p : List String) : Except FileError (List String) :=
  match t.walk [] p with
  | none => .error .symlinkLoop
  | some q => .ok q

def isFile (t : FileTree) (p : List String) : Bool :=
  match (t.walk [] p).bind t.node with
  | some (.file _) => true
  | _ => false

/-- The lines of a text end in `\n` when it is read. -/
def universalNewlines : List Char → List Char
  | '\r' :: '\n' :: rest => '\n' :: universalNewlines rest
  | '\r' :: rest => '\n' :: universalNewlines rest
  | c :: rest => c :: universalNewlines rest
  | [] => []

def readText (t : FileTree) (p : List String) : Except FileError String := do
  let q ← t.locate p
  match t.node q with
  | some (.file content) => return String.ofList (universalNewlines content.toList)
  | some .dir => throw .isADirectory
  | _ => throw .noEntry

def writeText (t : FileTree) (p : List String) (content : String) : Except FileError FileTree := do
  let q ← t.locate p
  if t.node q = some .dir then throw .isADirectory
  else if h : t.CanPut q then return t.put q (.file content) h
  else throw .noEntry

/-! ### What has changed -/

theorem node_of_prefix (h : t.node p = some .dir) (hq : q <+: p) : t.node q = some .dir := by
  obtain ⟨r, rfl⟩ := hq
  by_cases hr : r = []
  · rwa [hr, List.append_nil] at h
  · exact node_above h hr

/-- `t'` is `t` with those directories on the way to `p` that were missing. -/
structure Made (t : FileTree) (p : List String) (t' : FileTree) : Prop where
  dir : t'.node p = some .dir
  same : ∀ q, t'.node q = t.node q ∨ q <+: p ∧ t.node q = none ∧ t'.node q = some .dir

theorem made_of_mkdirsFrom {rest : List String} (hp : t.node p = some .dir) (h : t.mkdirsFrom p rest = .ok t') :
    t.Made (p ++ rest) t' := by
  induction rest generalizing p t with
  | nil =>
    obtain rfl := Except.ok.inj h
    rw [List.append_nil]
    exact ⟨hp, fun _ => Or.inl rfl⟩
  | cons name rest ih =>
    have hsnoc : p ++ name :: rest = (p ++ [name]) ++ rest := by rw [List.append_assoc]; rfl
    rw [hsnoc]
    unfold mkdirsFrom at h
    split at h
    · rename_i hdir
      exact ih hdir h
    · exact absurd h (by simp)
    · rename_i hnone
      split at h
      · rename_i hput
        have hmade := ih (by rw [node_put, if_pos rfl]) h
        refine ⟨hmade.dir, fun q => ?_⟩
        by_cases hq : q = p ++ [name]
        · -- the directory that is made here
          subst hq
          exact Or.inr ⟨List.prefix_append .., hnone, node_of_prefix hmade.dir (List.prefix_append ..)⟩
        · have hsame := hmade.same q
          rwa [node_put, if_neg hq] at hsame
      · exact absurd h (by simp)

theorem made_of_mkdirs (h : t.mkdirs p = .ok t') : t.Made p t' := made_of_mkdirsFrom t.root_eq h

theorem Made.readlink_eq (h : t.Made p t') (q : List String) : t'.readlink q = t.readlink q := by
  rcases h.same q with hsame | ⟨-, hnone, hdir⟩
  · unfold readlink
    rw [hsame]
  · unfold readlink
    rw [hnone, hdir]

theorem Made.canonical (h : t.Made p t') (hq : t.Canonical q) : t'.Canonical q where
  names := hq.names
  free r hr := by rw [h.readlink_eq]; exact hq.free r hr

theorem locate_of_canonical (hp : t.Canonical p) : t.locate p = .ok p := by
  unfold locate
  rw [hp.walk_eq]

/-- A file is written where the path leads, and nowhere else. -/
theorem node_writeText {content : String} (hp : t.Canonical p) (h : t.writeText p content = .ok t') :
    t.node p ≠ some .dir ∧ t'.node p = some (.file content) ∧ ∀ q, q ≠ p → t'.node q = t.node q := by
  unfold writeText at h
  rw [locate_of_canonical hp, ok_bind] at h
  split at h
  · exact absurd h (by simp [throw, throwThe, MonadExceptOf.throw])
  · rename_i hdir
    split at h
    · rename_i hput
      obtain rfl := Except.ok.inj h
      refine ⟨hdir, ?_, fun q hq => ?_⟩
      · rw [node_put, if_pos rfl]
      · rw [node_put, if_neg hq]
    · exact absurd h (by simp [throw, throwThe, MonadExceptOf.throw])

theorem isFile_of_canonical (hp : t.Canonical p) : t.isFile p = true ↔ ∃ content, t.node p = some (.file content) := by
  unfold isFile
  rw [hp.walk_eq, Option.bind_some]
  split
  · rename_i content hnode
    exact ⟨fun _ => ⟨content, hnode⟩, fun _ => rfl⟩
  · rename_i hnode
    exact ⟨fun h => absurd h (by simp), fun ⟨content, h⟩ => absurd h (hnode content)⟩

theorem readText_of_file {content : String} (hp : t.Canonical p) (h : t.node p = some (.file content)) :
    t.readText p = .ok (String.ofList (universalNewlines content.toList)) := by
  unfold readText
  rw [locate_of_canonical hp, ok_bind, h]
  rfl

end FileTree
