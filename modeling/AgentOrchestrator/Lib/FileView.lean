import AgentOrchestrator.Lib.FileAccess

/-!
# A directory and what lies outside of it

`Within base t t'` says that a tree has changed in the directory `base` only, but for `base` itself and the directories
above it, which may have been made; and no link has changed.  `Alike base t t'` says that two trees differ only in the
contents of files outside of `base`.  Links and directories alone decide where a path leads, so an operation on a path
comes out alike in trees that are alike, and if the path leads into `base` it leaves them alike and changes nothing else.
-/

namespace FileTree

variable {t t' t'' : FileTree} {base p q rest : List String}

/-! ### Links decide where a path leads -/

theorem Resolves.of_links (hlink : ∀ p, t'.readlink p = t.readlink p) (h : t.Resolves p rest q) :
    t'.Resolves p rest q := by
  induction h with
  | nil p => exact .nil p
  | here hhere _ ih => exact .here hhere ih
  | up _ ih => exact .up ih
  | down hname hnone _ ih => exact .down hname ((hlink _).trans hnone) ih
  | link hname hsome _ _ ihtarget ih => exact .link hname ((hlink _).trans hsome) ihtarget ih

theorem walk_of_links (hlink : ∀ p, t'.readlink p = t.readlink p) (p rest : List String) :
    t'.walk p rest = t.walk p rest := by
  refine Option.ext fun q => ?_
  rw [walk_iff, walk_iff]
  exact ⟨fun h => h.of_links fun p => (hlink p).symm, fun h => h.of_links hlink⟩

theorem links_of_links (hlink : ∀ p, t'.readlink p = t.readlink p) : t'.links = t.links := by
  ext p
  rw [mem_links_iff, mem_links_iff, hlink]

theorem joinRealpathWith_of_links (hlink : ∀ p, t'.readlink p = t.readlink p)
    (follow : List String → Except (List String) (List String)) (p rest : List String) :
    t'.joinRealpathWith follow p rest = t.joinRealpathWith follow p rest := by
  induction rest generalizing p with
  | nil => rfl
  | cons name rest ih =>
    unfold joinRealpathWith
    simp only [hlink, ih]

theorem followLink_of_links (hlink : ∀ p, t'.readlink p = t.readlink p) (n : Nat) (seen : Finset (List String)) :
    t'.followLink n seen = t.followLink n seen := by
  induction n generalizing seen with
  | zero => rfl
  | succ n ih =>
    funext link
    unfold followLink
    simp only [hlink, ih, joinRealpathWith_of_links hlink]

theorem resolve_of_links (hlink : ∀ p, t'.readlink p = t.readlink p) (hcwd : t'.cwd = t.cwd) (path : PurePath) :
    t'.resolve path = t.resolve path := by
  unfold resolve joinRealpath
  simp only [hcwd, walk_of_links hlink, joinRealpathWith_of_links hlink, followLink_of_links hlink,
    links_of_links hlink]

theorem LoopFree.of_links (h : t.LoopFree) (hlink : ∀ p, t'.readlink p = t.readlink p) : t'.LoopFree := by
  intro link target htarget
  obtain ⟨r, hr⟩ := h link target ((hlink link).symm.trans htarget)
  exact ⟨r, hr.of_links hlink⟩

theorem locate_of_links (hlink : ∀ p, t'.readlink p = t.readlink p) (p : List String) : t'.locate p = t.locate p := by
  unfold locate
  rw [walk_of_links hlink]

/-- Without loops, where `resolve` leads is canonical. -/
theorem canonical_of_resolve {path : PurePath} (hloops : t.LoopFree) (h : t.resolve path = .ok p) : t.Canonical p := by
  by_cases hnul : path.parts.any fun name => Char.ofNat 0 ∈ name.toList
  · unfold resolve at h
    rw [if_pos hnul] at h
    exact absurd h (by simp)
  · obtain ⟨q, hq⟩ := hloops.exists_resolves (if path.absolute then [] else t.cwd) path.parts
    have hresolve := resolve_of_walk (by simpa using hnul) (walk_iff.2 hq)
    obtain rfl := Except.ok.inj (h.symm.trans hresolve)
    refine hq.canonical ?_
    split
    · exact canonical_nil
    · exact canonical_of_dir t.cwd_eq

theorem readlink_of_none (h : t.node p = none) : t.readlink p = none := by
  unfold readlink
  rw [h]

theorem readlink_put {node : Node} (h : t.CanPut p) (hnode : ∀ target, node ≠ .link target) (q : List String) :
    (t.put p node h).readlink q = if q = p then none else t.readlink q := by
  have hput : (t.put p node h).node q = if q = p then some node else t.node q := node_put h q
  unfold readlink
  by_cases hq : q = p
  · rw [if_pos hq] at hput ⊢
    rw [hput]
    cases node with
    | link target => exact absurd rfl (hnode target)
    | dir => rfl
    | file content => rfl
  · rw [if_neg hq] at hput ⊢
    rw [hput]

/-! ### Changes within a directory -/

/-- `t'` comes from `t` by changes in `base`, which may have had to be made. -/
structure Within (base : List String) (t t' : FileTree) : Prop where
  cwd : t'.cwd = t.cwd
  link : ∀ p, t'.readlink p = t.readlink p
  outside : ∀ p, ¬ base <+: p → t'.node p = t.node p ∨ p <+: base ∧ t.node p = none ∧ t'.node p = some .dir

namespace Within

theorem refl (base : List String) (t : FileTree) : Within base t t := ⟨rfl, fun _ => rfl, fun _ _ => Or.inl rfl⟩

theorem trans (h : Within base t t') (h' : Within base t' t'') : Within base t t'' := by
  refine ⟨h'.cwd.trans h.cwd, fun p => (h'.link p).trans (h.link p), fun p hp => ?_⟩
  rcases h'.outside p hp with hsame | ⟨hle, hnone, hdir⟩
  · rw [hsame]
    exact h.outside p hp
  · rcases h.outside p hp with hsame | ⟨-, -, hdir'⟩
    · exact Or.inr ⟨hle, hsame ▸ hnone, hdir⟩
    · exact absurd (hnone.symm.trans hdir') (by simp)

theorem resolve_eq (h : Within base t t') (path : PurePath) : t'.resolve path = t.resolve path :=
  resolve_of_links h.link h.cwd path

/-- An entry is added or replaced in the directory, and is no link. -/
theorem put {node : Node} (hp : t.CanPut p) (hnode : ∀ target, node ≠ .link target) (hlink : t.readlink p = none)
    (hbase : base <+: p) : Within base t (t.put p node hp) := by
  refine ⟨rfl, fun q => ?_, fun q hq => Or.inl ?_⟩
  · rw [readlink_put hp hnode]
    split
    · rename_i hq
      rw [hq, hlink]
    · rfl
  · rw [node_put, if_neg]
    rintro rfl
    exact hq hbase

theorem mkdirsFrom {rest : List String} (h : t.mkdirsFrom p rest = .ok t')
    (hbase : base <+: p ++ rest ∨ p ++ rest <+: base) : Within base t t' := by
  induction rest generalizing p t with
  | nil =>
    obtain rfl := Except.ok.inj h
    exact refl base t
  | cons name rest ih =>
    have hsnoc : p ++ name :: rest = (p ++ [name]) ++ rest := by rw [List.append_assoc]; rfl
    rw [hsnoc] at hbase
    unfold FileTree.mkdirsFrom at h
    split at h
    · exact ih h hbase
    · exact absurd h (by simp)
    · rename_i hnone
      split at h
      · rename_i hput
        have hone : Within base t (t.put (p ++ [name]) .dir hput) := by
          refine ⟨rfl, fun q => ?_, fun q hq => ?_⟩
          · rw [readlink_put hput fun _ => by simp]
            split
            · rename_i heq
              rw [heq, readlink_of_none hnone]
            · rfl
          · rw [node_put]
            split
            · rename_i heq
              subst heq
              refine Or.inr ⟨?_, hnone, rfl⟩
              -- the directory that is made lies on the way to `base`
              rcases hbase with hle | hle
              · exact (List.prefix_or_prefix_of_prefix (List.prefix_append _ rest) hle).resolve_right hq
              · exact (List.prefix_append _ rest).trans hle
            · exact Or.inl rfl
        exact hone.trans (ih h hbase)
      · exact absurd h (by simp)

theorem mkdirs (h : t.mkdirs p = .ok t') (hbase : base <+: p ∨ p <+: base) : Within base t t' :=
  mkdirsFrom h hbase

theorem writeText {content : String} (hp : t.Canonical p) (h : t.writeText p content = .ok t')
    (hbase : base <+: p) : Within base t t' := by
  unfold FileTree.writeText at h
  rw [locate_of_canonical hp] at h
  change (if t.node p = some .dir then _ else _) = _ at h
  split at h
  · exact absurd h (by simp [throw, throwThe, MonadExceptOf.throw])
  · split at h
    · rename_i hput
      obtain rfl := Except.ok.inj h
      exact put hput (fun _ => by simp) (hp.free p (List.prefix_refl p)) hbase
    · exact absurd h (by simp [throw, throwThe, MonadExceptOf.throw])

end Within

/-! ### Trees that are alike -/

/-- The same directories, files and links, and below `base` the same contents. -/
structure Alike (base : List String) (t t' : FileTree) : Prop where
  cwd : t'.cwd = t.cwd
  link : ∀ p, t'.readlink p = t.readlink p
  dir : ∀ p, t'.node p = some .dir ↔ t.node p = some .dir
  none : ∀ p, t'.node p = none ↔ t.node p = none
  below : ∀ p, base <+: p → t'.node p = t.node p

namespace Alike

theorem refl (base : List String) (t : FileTree) : Alike base t t :=
  ⟨rfl, fun _ => rfl, fun _ => Iff.rfl, fun _ => Iff.rfl, fun _ _ => rfl⟩

theorem resolve_eq (h : Alike base t t') (path : PurePath) : t'.resolve path = t.resolve path :=
  resolve_of_links h.link h.cwd path

theorem canPut_iff (h : Alike base t t') : t'.CanPut p ↔ t.CanPut p := by
  unfold CanPut
  have hdir := h.dir p.dropLast
  have hself := h.dir p
  tauto

theorem put (h : Alike base t t') {node : Node} (hnode : ∀ target, node ≠ .link target) (hp : t.CanPut p)
    (hp' : t'.CanPut p) : Alike base (t.put p node hp) (t'.put p node hp') := by
  refine ⟨h.cwd, fun q => ?_, fun q => ?_, fun q => ?_, fun q hq => ?_⟩
  · rw [readlink_put hp hnode, readlink_put hp' hnode, h.link]
  · rw [node_put, node_put]
    split
    · rfl
    · exact h.dir q
  · rw [node_put, node_put]
    split
    · rfl
    · exact h.none q
  · rw [node_put, node_put, h.below q hq]

/-- A file outside of `base` may have another content. -/
theorem overwrite {content content' : String} (hp : t.CanPut p) (hfile : t.node p = some (.file content))
    (hout : ¬ base <+: p) : Alike base t (t.put p (.file content') hp) := by
  refine ⟨rfl, fun q => ?_, fun q => ?_, fun q => ?_, fun q hq => ?_⟩
  · rw [readlink_put hp fun _ => by simp]
    split
    · rename_i hq
      subst hq
      unfold readlink
      rw [hfile]
    · rfl
  · rw [node_put]
    split
    · rename_i hq
      rw [hq, hfile]
      simp
    · rfl
  · rw [node_put]
    split
    · rename_i hq
      rw [hq, hfile]
      simp
    · rfl
  · rw [node_put, if_neg]
    rintro rfl
    exact hout hq

/-- The same error, or trees that are alike again. -/
def Outcome {ε : Type} (base : List String) (x x' : Except ε FileTree) : Prop :=
  (∃ e, x = .error e ∧ x' = .error e) ∨ ∃ t t', x = .ok t ∧ x' = .ok t' ∧ Alike base t t'

theorem mkdirsFrom (h : Alike base t t') (p rest : List String) :
    Outcome base (t.mkdirsFrom p rest) (t'.mkdirsFrom p rest) := by
  induction rest generalizing p t t' with
  | nil => exact Or.inr ⟨t, t', rfl, rfl, h⟩
  | cons name rest ih =>
    have hdir := h.dir (p ++ [name])
    have hnone := h.none (p ++ [name])
    unfold FileTree.mkdirsFrom
    cases hnode : t.node (p ++ [name]) with
    | none =>
      rw [hnone.2 hnode]
      dsimp only
      by_cases hput : t.CanPut (p ++ [name])
      · rw [dif_pos hput, dif_pos (h.canPut_iff.2 hput)]
        exact ih (h.put (fun _ => by simp) hput _) _
      · rw [dif_neg hput, dif_neg fun hput' => hput (h.canPut_iff.1 hput')]
        exact Or.inl ⟨_, rfl, rfl⟩
    | some node =>
      cases hnode' : t'.node (p ++ [name]) with
      | none => exact absurd (hnode.symm.trans (hnone.1 hnode')) (by simp)
      | some node' =>
        by_cases hd : node = .dir
        · subst hd
          have hd' : node' = .dir := Option.some.inj (hnode'.symm.trans (hdir.2 hnode))
          subst hd'
          exact ih h _
        · have hd' : node' ≠ .dir := by
            rintro rfl
            exact hd (Option.some.inj (hnode.symm.trans (hdir.1 hnode')))
          cases node with
          | dir => exact absurd rfl hd
          | _ =>
            cases node' with
            | dir => exact absurd rfl hd'
            | _ => exact Or.inl ⟨_, rfl, rfl⟩

theorem mkdirs (h : Alike base t t') (p : List String) : Outcome base (t.mkdirs p) (t'.mkdirs p) := h.mkdirsFrom [] p

theorem writeText (h : Alike base t t') (p : List String) (content : String) :
    Outcome base (t.writeText p content) (t'.writeText p content) := by
  unfold FileTree.writeText
  rw [locate_of_links h.link]
  cases t.locate p with
  | error e => exact Or.inl ⟨e, rfl, rfl⟩
  | ok q =>
    change Outcome base (if t.node q = some .dir then _ else _) (if t'.node q = some .dir then _ else _)
    by_cases hdir : t.node q = some .dir
    · rw [if_pos hdir, if_pos ((h.dir q).2 hdir)]
      exact Or.inl ⟨_, rfl, rfl⟩
    · rw [if_neg hdir, if_neg fun hdir' => hdir ((h.dir q).1 hdir')]
      by_cases hput : t.CanPut q
      · rw [dif_pos hput, dif_pos (h.canPut_iff.2 hput)]
        exact Or.inr ⟨_, _, rfl, rfl, h.put (fun _ => by simp) hput _⟩
      · rw [dif_neg hput, dif_neg fun hput' => hput (h.canPut_iff.1 hput')]
        exact Or.inl ⟨_, rfl, rfl⟩

/-- What is read below `base` is the same. -/
theorem isFile_eq (h : Alike base t t') (hp : t.Canonical p) (hbase : base <+: p) : t'.isFile p = t.isFile p := by
  unfold isFile
  rw [walk_of_links h.link, hp.walk_eq, Option.bind_some, Option.bind_some, h.below p hbase]

theorem readText_eq (h : Alike base t t') (hp : t.Canonical p) (hbase : base <+: p) :
    t'.readText p = t.readText p := by
  unfold readText
  rw [locate_of_links h.link, locate_of_canonical hp]
  simp only [bind, Except.bind, h.below p hbase]

end Alike

end FileTree
