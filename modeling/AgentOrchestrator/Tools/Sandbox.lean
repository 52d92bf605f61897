import AgentOrchestrator.Lib.FileAccess

/-!
# The sandbox of the file tools

`fileRead` and `fileWrite` go through `resolveInSandbox`, which takes a path relative to the directory of the sandbox and
compares where it leads with that directory.
-/

namespace AgentOrchestrator

inductive SandboxError where
  | escapes (path : String)
  | notInSandbox (path : String)
  | system (e : FileError)
deriving DecidableEq

/-- The texts of the `PermissionError` and the `FileNotFoundError` that the tools raise themselves. -/
def SandboxError.message? : SandboxError → Option String
  | .escapes path => some ("Path '" ++ path ++ "' escapes the sandbox directory.")
  | .notInSandbox path => some ("'" ++ path ++ "' does not exist in the sandbox.")
  | .system _ => none

/-- `_sandbox_dir`; the directory is made if it does not exist. -/
def sandboxDir (workdir : String) (t : FileTree) : Except SandboxError (List String) × FileTree :=
  match t.resolve (PurePath.ofString workdir) with
  | .error e => (.error (.system e), t)
  | .ok path =>
    match t.mkdirs path with
    | .error e => (.error (.system e), t)
    | .ok t' => (.ok path, t')

/-- `_resolve_in_sandbox`. -/
def resolveInSandbox (workdir relativePath : String) (t : FileTree) :
    Except SandboxError (List String) × FileTree :=
  match sandboxDir workdir t with
  | (.error e, t') => (.error e, t')
  | (.ok sandbox, t') =>
    match t'.resolve (PurePath.join ⟨true, sandbox⟩ (PurePath.ofString relativePath)) with
    | .error e => (.error (.system e), t')
    | .ok candidate =>
      if sandbox ∉ parents candidate ∧ candidate ≠ sandbox then (.error (.escapes relativePath), t')
      else (.ok candidate, t')

def fileRead (workdir path : String) (t : FileTree) : Except SandboxError String × FileTree :=
  match resolveInSandbox workdir path t with
  | (.error e, t') => (.error e, t')
  | (.ok target, t') =>
    if t'.isFile target = false then (.error (.notInSandbox path), t')
    else
      match t'.readText target with
      | .error e => (.error (.system e), t')
      | .ok text => (.ok text, t')

def fileWrite (workdir path content : String) (t : FileTree) : Except SandboxError String × FileTree :=
  match resolveInSandbox workdir path t with
  | (.error e, t') => (.error e, t')
  | (.ok target, t') =>
    match t'.mkdirs target.dropLast with
    | .error e => (.error (.system e), t')
    | .ok t₁ =>
      match t₁.writeText target content with
      | .error e => (.error (.system e), t₁)
      | .ok t₂ => (.ok ("Wrote " ++ toString content.length ++ " bytes to '" ++ path ++ "'."), t₂)

/-! ### Where a path leads -/

section Resolve

variable {workdir path : String} {t t' : FileTree} {sandbox canonical : List String}

/-- The check is a comparison of names. -/
theorem inside_iff {candidate : List String} :
    ¬ (sandbox ∉ parents candidate ∧ candidate ≠ sandbox) ↔ sandbox <+: candidate := by
  rw [mem_parents, not_and_or, not_not, not_not]
  constructor
  · rintro (h | rfl)
    · exact h.1
    · exact List.prefix_rfl
  · intro h
    by_cases heq : candidate = sandbox
    · exact Or.inr heq
    · exact Or.inl ⟨h, fun h => heq h.symm⟩

theorem made_of_sandboxDir (h : sandboxDir workdir t = (.ok sandbox, t')) : t.Made sandbox t' := by
  unfold sandboxDir at h
  split at h
  · exact absurd (congrArg Prod.fst h) (by simp)
  · split at h
    · exact absurd (congrArg Prod.fst h) (by simp)
    · rename_i hmkdirs
      obtain ⟨hpath, rfl⟩ := Prod.mk.inj h
      obtain rfl := Except.ok.inj hpath
      exact FileTree.made_of_mkdirs hmkdirs

/-- `resolve` goes where the path leads from the directory of the sandbox. -/
theorem resolve_join (hdir : t'.node sandbox = some .dir) (hnul : Char.ofNat 0 ∉ path.toList)
    (hcanonical : t'.CanonicalForm sandbox path canonical) :
    t'.resolve (PurePath.join ⟨true, sandbox⟩ (PurePath.ofString path)) = .ok canonical := by
  have hparts : ∀ name ∈ (PurePath.join ⟨true, sandbox⟩ (PurePath.ofString path)).parts,
      Char.ofNat 0 ∉ name.toList := by
    intro name hname
    have hmem : name ∈ sandbox ∨ name ∈ components path := by
      unfold PurePath.join at hname
      split at hname
      · exact Or.inr (List.mem_of_mem_filter hname)
      · exact (List.mem_append.1 hname).imp_right List.mem_of_mem_filter
    rcases hmem with hmem | hmem
    · exact (t'.names sandbox (Dict.mem_keys_iff.2 ⟨.dir, hdir⟩) name hmem).2.2
    · exact fun hc => hnul (mem_of_mem_components hmem hc)
  have hwalk : t'.walk (if (PurePath.join ⟨true, sandbox⟩ (PurePath.ofString path)).absolute then [] else t'.cwd)
      (PurePath.join ⟨true, sandbox⟩ (PurePath.ofString path)).parts = some canonical := by
    have hfilter := FileTree.canonicalForm_iff.1 hcanonical
    unfold FileTree.walk at hfilter
    rw [← FileTree.walkWith_filter] at hfilter
    unfold PurePath.join
    by_cases habsolute : IsAbsolute path
    · rw [if_pos habsolute] at hfilter
      simp only [PurePath.ofString, habsolute, decide_true, if_true]
      exact hfilter
    · -- the walk goes through the sandbox first
      rw [if_neg habsolute] at hfilter
      simp only [PurePath.ofString, habsolute, decide_false, Bool.false_eq_true, if_false, if_true]
      have hsandbox := FileTree.canonical_of_dir hdir
      exact FileTree.walk_iff.2 ((FileTree.walk_iff.1 hsandbox.walk_eq).append (FileTree.walk_iff.1 hfilter))
  exact FileTree.resolve_of_walk hparts hwalk

theorem resolveInSandbox_eq (h : sandboxDir workdir t = (.ok sandbox, t')) (hnul : Char.ofNat 0 ∉ path.toList)
    (hcanonical : t'.CanonicalForm sandbox path canonical) :
    resolveInSandbox workdir path t =
      (if sandbox <+: canonical then .ok canonical else .error (.escapes path), t') := by
  unfold resolveInSandbox
  rw [h]
  simp only [resolve_join (made_of_sandboxDir h).dir hnul hcanonical]
  by_cases hinside : sandbox <+: canonical
  · rw [if_neg (inside_iff.2 hinside), if_pos hinside]
  · rw [if_pos (by by_contra hcheck; exact hinside (inside_iff.1 hcheck)), if_neg hinside]

/-! ### What is read and written -/

/-- A file that is read lies in the sandbox. -/
theorem fileRead_eq_ok (h : sandboxDir workdir t = (.ok sandbox, t')) (hnul : Char.ofNat 0 ∉ path.toList)
    (hcanonical : t'.CanonicalForm sandbox path canonical) {text : String} :
    fileRead workdir path t = (.ok text, t') ↔
      sandbox <+: canonical ∧ ∃ content, t'.node canonical = some (.file content) ∧
        text = String.ofList (FileTree.universalNewlines content.toList) := by
  have hfree := hcanonical.canonical (FileTree.canonical_of_dir (made_of_sandboxDir h).dir)
  unfold fileRead
  rw [resolveInSandbox_eq h hnul hcanonical]
  by_cases hinside : sandbox <+: canonical
  · rw [if_pos hinside]
    by_cases hfile : t'.isFile canonical = true
    · obtain ⟨content, hcontent⟩ := (FileTree.isFile_of_canonical hfree).1 hfile
      simp only [hfile, Bool.true_eq_false, if_false, FileTree.readText_of_file hfree hcontent]
      constructor
      · intro heq
        exact ⟨hinside, content, hcontent, (Except.ok.inj (Prod.mk.inj heq).1).symm⟩
      · rintro ⟨-, content', hcontent', rfl⟩
        obtain rfl := Node.file.inj (Option.some.inj (hcontent.symm.trans hcontent'))
        rfl
    · constructor
      · intro heq
        simp only [hfile] at heq
        exact absurd (Prod.mk.inj heq).1 (by simp)
      · rintro ⟨-, content, hcontent, -⟩
        exact absurd ((FileTree.isFile_of_canonical hfree).2 ⟨content, hcontent⟩) hfile
  · rw [if_neg hinside]
    constructor
    · exact fun heq => absurd (Prod.mk.inj heq).1 (by simp)
    · exact fun hcontent => absurd hcontent.1 hinside

theorem fileRead_tree (h : sandboxDir workdir t = (.ok sandbox, t')) (hnul : Char.ofNat 0 ∉ path.toList)
    (hcanonical : t'.CanonicalForm sandbox path canonical) :
    (fileRead workdir path t).2 = t' := by
  unfold fileRead
  rw [resolveInSandbox_eq h hnul hcanonical]
  split
  · rename_i heq
    exact (Prod.mk.inj heq).2.symm
  · rename_i heq
    obtain ⟨-, rfl⟩ := Prod.mk.inj heq
    split
    · rfl
    · split <;> rfl

/-- The directories that are made for a file of the sandbox lie in it, too. -/
theorem node_made {t₁ : FileTree} {p : List String} (hdir : t'.node sandbox = some .dir)
    (hmade : t'.Made canonical.dropLast t₁) (hinside : sandbox <+: canonical) (hp : ¬ sandbox <+: p) :
    t₁.node p = t'.node p := by
  rcases hmade.same p with hsame | ⟨habove, hnone, -⟩
  · exact hsame
  · rcases List.prefix_or_prefix_of_prefix (habove.trans (List.dropLast_prefix _)) hinside with hle | hle
    · exact absurd (hnone.symm.trans (FileTree.node_of_prefix hdir hle)) (by simp)
    · exact absurd hle hp

theorem fileWrite_outside (h : sandboxDir workdir t = (.ok sandbox, t')) (hnul : Char.ofNat 0 ∉ path.toList)
    (hcanonical : t'.CanonicalForm sandbox path canonical)
    (content : String) {p : List String} (hp : ¬ sandbox <+: p) :
    (fileWrite workdir path content t).2.node p = t'.node p := by
  have hdir := (made_of_sandboxDir h).dir
  unfold fileWrite
  rw [resolveInSandbox_eq h hnul hcanonical]
  by_cases hinside : sandbox <+: canonical
  · rw [if_pos hinside]
    split
    · rename_i heq
      exact absurd (Prod.mk.inj heq).1 (by simp)
    · rename_i target _ heq
      obtain ⟨htarget, rfl⟩ := Prod.mk.inj heq
      obtain rfl := Except.ok.inj htarget
      split
      · rfl
      · rename_i t₁ hmkdirs
        have hmade := FileTree.made_of_mkdirs hmkdirs
        split
        · exact node_made hdir hmade hinside hp
        · rename_i t₂ hwrite
          have hfree := hmade.canonical (hcanonical.canonical (FileTree.canonical_of_dir hdir))
          obtain ⟨-, -, hsame⟩ := FileTree.node_writeText hfree hwrite
          rw [hsame p (by rintro rfl; exact hp hinside)]
          exact node_made hdir hmade hinside hp
  · rw [if_neg hinside]

end Resolve

/-- The sandbox is not left.  Where a path leads from the directory of the sandbox is what `_resolve_in_sandbox` returns if
its names begin with those of the sandbox, and refused otherwise; what is read is a file of the sandbox, and what is
written leaves everything outside as it is. -/
theorem sandbox_confines {workdir path : String} {t t' : FileTree} {sandbox canonical : List String}
    (h : sandboxDir workdir t = (.ok sandbox, t')) (hnul : Char.ofNat 0 ∉ path.toList)
    (hcanonical : t'.CanonicalForm sandbox path canonical) :
    t'.Canonical canonical ∧
      resolveInSandbox workdir path t =
        (if sandbox <+: canonical then .ok canonical else .error (.escapes path), t') ∧
      (fileRead workdir path t).2 = t' ∧
      (∀ text, (fileRead workdir path t).1 = .ok text →
        sandbox <+: canonical ∧ ∃ content, t'.node canonical = some (.file content) ∧
          text = String.ofList (FileTree.universalNewlines content.toList)) ∧
      ∀ content p, ¬ sandbox <+: p → (fileWrite workdir path content t).2.node p = t'.node p := by
  refine ⟨hcanonical.canonical (FileTree.canonical_of_dir (made_of_sandboxDir h).dir), resolveInSandbox_eq h hnul hcanonical,
    fileRead_tree h hnul hcanonical, fun text htext => ?_, fun content p hp => fileWrite_outside h hnul hcanonical content hp⟩
  exact (fileRead_eq_ok h hnul hcanonical).1 (Prod.ext htext (fileRead_tree h hnul hcanonical))

section Sample

/-- A sandbox beside a directory whose name begins like its own, with a link that leads out of it. -/
def sampleTree : FileTree where
  nodes := ⟨[([], .dir), (["srv"], .dir), (["srv", "box"], .dir), (["srv", "box2"], .dir),
    (["srv", "box2", "key"], .file "secret"), (["srv", "box", "out"], .link "../box2"),
    (["srv", "box", "a"], .file "text")], by decide⟩
  cwd := ["srv"]
  root_eq := by decide
  cwd_eq := by decide
  parent_eq := by decide
  names := by decide

theorem loopFree_sampleTree : sampleTree.LoopFree := by
  intro link target htarget
  have hmem : link ∈ sampleTree.links := FileTree.mem_links_iff.2 (by rw [htarget]; rfl)
  have hlinks : sampleTree.links = {["srv", "box", "out"]} := by decide +kernel
  obtain rfl : link = ["srv", "box", "out"] := by simpa [hlinks] using hmem
  obtain rfl : target = "../box2" := (Option.some.inj (show some "../box2" = some target from htarget)).symm
  exact ⟨["srv", "box2"], FileTree.walk_iff.1 (by decide +kernel)⟩

theorem sandboxDir_sample : sandboxDir "./box" sampleTree = (.ok ["srv", "box"], sampleTree) := by
  have hresolve : sampleTree.resolve (PurePath.ofString "./box") = .ok ["srv", "box"] := by decide +kernel
  unfold sandboxDir
  simp only [hresolve]
  rfl

/-- A path through a link that leads out of the sandbox, and one that comes back. -/
theorem sandbox_confines_sample :
    resolveInSandbox "./box" "out/key" sampleTree = (.error (.escapes "out/key"), sampleTree) ∧
      resolveInSandbox "./box" "out//../box/./a/" sampleTree = (.ok ["srv", "box", "a"], sampleTree) := by
  have hout : sampleTree.CanonicalForm ["srv", "box"] "out/key" ["srv", "box2", "key"] :=
    FileTree.canonicalForm_iff.2 (by decide +kernel)
  have hback : sampleTree.CanonicalForm ["srv", "box"] "out//../box/./a/" ["srv", "box", "a"] :=
    FileTree.canonicalForm_iff.2 (by decide +kernel)
  exact ⟨(sandbox_confines sandboxDir_sample (by decide +kernel) hout).2.1,
    (sandbox_confines sandboxDir_sample (by decide +kernel) hback).2.1⟩

end Sample

end AgentOrchestrator
