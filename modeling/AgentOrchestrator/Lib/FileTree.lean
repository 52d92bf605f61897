import AgentOrchestrator.Lib.Approximation
import AgentOrchestrator.Lib.Dict

/-!
# File trees with symbolic links

A `FileTree` holds directories, files and symbolic links under their paths, which are lists of names from the root.
`Resolves` is the walk along a path through the links of a tree, and `walk` computes it, unless the walk meets a loop of
links (`walk_iff`).  Where a walk from a canonical path ends is canonical again: no name in it stands for something else.
`joinRealpath` is the walk of the standard library, which breaks off at a loop and returns the rest of the path as it is;
without a loop it ends where the walk does (`joinRealpath_of_walk`).
-/

inductive Node where
  | dir
  | file (content : String)
  | link (target : String)
deriving DecidableEq

/-- A name that is not a way of writing a directory itself or the one above it. -/
def IsName (name : String) : Prop := name ≠ "" ∧ name ≠ "." ∧ name ≠ ".."

instance (name : String) : Decidable (IsName name) := inferInstanceAs (Decidable (_ ∧ _ ∧ _))

/-- A name under which there can be an entry of a directory. -/
def IsEntry (name : String) : Prop := IsName name ∧ '/' ∉ name.toList ∧ Char.ofNat 0 ∉ name.toList

instance (name : String) : Decidable (IsEntry name) := inferInstanceAs (Decidable (_ ∧ _ ∧ _))

/-- What exists lies in a directory, and `cwd` is the working directory. -/
structure FileTree where
  nodes : Dict (List String) Node
  cwd : List String
  root_eq : nodes.get? [] = some .dir
  cwd_eq : nodes.get? cwd = some .dir
  parent_eq : ∀ p ∈ nodes.keys, p ≠ [] → nodes.get? p.dropLast = some .dir
  names : ∀ p ∈ nodes.keys, ∀ name ∈ p, IsEntry name

/-- The parts of a text between its separators. -/
def components (text : String) : List String := (text.toList.splitOn '/').map String.ofList

theorem mem_of_mem_splitOn {α : Type} [DecidableEq α] {sep c : α} {l part : List α} (hpart : part ∈ l.splitOn sep)
    (hc : c ∈ part) : c ∈ l := by
  induction l generalizing part with
  | nil =>
    obtain rfl := List.mem_singleton.1 hpart
    exact hc
  | cons x l ih =>
    rw [List.splitOn_cons_eq_if_modifyHead] at hpart
    split at hpart
    · rcases List.mem_cons.1 hpart with rfl | hpart
      · exact absurd hc List.not_mem_nil
      · exact List.mem_cons_of_mem _ (ih hpart hc)
    · cases hsplit : l.splitOn sep with
      | nil => exact absurd hsplit (List.splitOn_ne_nil _ _)
      | cons first rest =>
        rw [hsplit, List.modifyHead_cons] at hpart
        rcases List.mem_cons.1 hpart with rfl | hpart
        · rcases List.mem_cons.1 hc with rfl | hc
          · exact List.mem_cons_self
          · exact List.mem_cons_of_mem _ (ih (by rw [hsplit]; exact List.mem_cons_self) hc)
        · exact List.mem_cons_of_mem _ (ih (by rw [hsplit]; exact List.mem_cons_of_mem _ hpart) hc)

/-- The parts of a text are made of its characters. -/
theorem mem_of_mem_components {text name : String} {c : Char} (hname : name ∈ components text) (hc : c ∈ name.toList) :
    c ∈ text.toList := by
  obtain ⟨part, hpart, rfl⟩ := List.mem_map.1 hname
  rw [String.toList_ofList] at hc
  exact mem_of_mem_splitOn hpart hc

def IsAbsolute (text : String) : Prop := text.toList.head? = some '/'

instance (text : String) : Decidable (IsAbsolute text) := inferInstanceAs (Decidable (_ = _))

namespace FileTree

variable (t : FileTree)

def node (p : List String) : Option Node := t.nodes.get? p

/-- The target of the symbolic link at a path. -/
def readlink (p : List String) : Option String :=
  match t.node p with
  | some (.link target) => some target
  | _ => none

def links : Finset (List String) := (t.nodes.keys.filter fun p => (t.readlink p).isSome).toFinset

/-- The directory in which the target of a link is looked for. -/
def origin (target : String) (link : List String) : List String := if IsAbsolute target then [] else link.dropLast

/-- The walk from `p` along the given names ends at a path. -/
inductive Resolves : List String → List String → List String → Prop
  | nil (p : List String) : Resolves p [] p
  | here {p q : List String} {name : String} {rest : List String} (h : name = "" ∨ name = ".")
      (hrest : Resolves p rest q) : Resolves p (name :: rest) q
  | up {p q : List String} {rest : List String} (hrest : Resolves p.dropLast rest q) : Resolves p (".." :: rest) q
  | down {p q : List String} {name : String} {rest : List String} (hname : IsName name)
      (h : t.readlink (p ++ [name]) = none) (hrest : Resolves (p ++ [name]) rest q) : Resolves p (name :: rest) q
  | link {p q r : List String} {name target : String} {rest : List String} (hname : IsName name)
      (h : t.readlink (p ++ [name]) = some target)
      (htarget : Resolves (origin target (p ++ [name])) (components target) r) (hrest : Resolves r rest q) :
      Resolves p (name :: rest) q

/-- The path `base / text` leads to `q`. -/
def CanonicalForm (base : List String) (text : String) (q : List String) : Prop :=
  t.Resolves (if IsAbsolute text then [] else base) (components text) q

/-! ### Computing the walk -/

/-- The walk, if `expand` is where the links lead. -/
def walkWith (expand : List String → Option (List String)) : List String → List String → Option (List String)
  | p, [] => some p
  | p, name :: rest =>
    if name = "" ∨ name = "." then walkWith expand p rest
    else if name = ".." then walkWith expand p.dropLast rest
    else
      match t.readlink (p ++ [name]) with
      | none => walkWith expand (p ++ [name]) rest
      | some _ => (expand (p ++ [name])).bind fun r => walkWith expand r rest

/-- Where a link leads, if `expand` is where the links on the way lead. -/
def expandWith (expand : List String → Option (List String)) (link : List String) : Option (List String) :=
  (t.readlink link).bind fun target => t.walkWith expand (origin target link) (components target)

/-- The walk, or nothing if it meets a loop of links. -/
def walk : List String → List String → Option (List String) :=
  t.walkWith (Approximation.approx t.expandWith t.links.card)

variable {t}

theorem walkWith_mono {f g : List String → Option (List String)} (h : Approximation.Below f g) {p rest q : List String}
    (hf : t.walkWith f p rest = some q) : t.walkWith g p rest = some q := by
  induction rest generalizing p with
  | nil => exact hf
  | cons name rest ih =>
    unfold walkWith at hf ⊢
    split
    · rename_i hhere
      rw [if_pos hhere] at hf
      exact ih hf
    · rename_i hhere
      rw [if_neg hhere] at hf
      split
      · rename_i hup
        rw [if_pos hup] at hf
        exact ih hf
      · rename_i hup
        rw [if_neg hup] at hf
        cases hlink : t.readlink (p ++ [name]) with
        | none =>
          simp only [hlink] at hf ⊢
          exact ih hf
        | some target =>
          simp only [hlink] at hf ⊢
          obtain ⟨r, hr, hrest⟩ := Option.bind_eq_some_iff.1 hf
          exact Option.bind_eq_some_iff.2 ⟨r, h _ r hr, ih hrest⟩

theorem mem_links_iff {p : List String} : p ∈ t.links ↔ (t.readlink p).isSome := by
  unfold links
  rw [List.mem_toFinset, List.mem_filter, and_iff_right_iff_imp]
  intro h
  unfold readlink node at h
  cases hnode : t.nodes.get? p with
  | none => rw [hnode] at h; exact absurd h (by simp)
  | some node => exact Dict.mem_keys_iff.2 ⟨node, hnode⟩

theorem expandWith_mono (f g : List String → Option (List String)) (h : Approximation.Below f g) :
    Approximation.Below (t.expandWith f) (t.expandWith g) := by
  intro link q hq
  obtain ⟨target, htarget, hwalk⟩ := Option.bind_eq_some_iff.1 hq
  exact Option.bind_eq_some_iff.2 ⟨target, htarget, walkWith_mono h hwalk⟩

/-- No walk needs more links inside of each other than there are. -/
theorem expand_stable :
    t.expandWith (Approximation.approx t.expandWith t.links.card) = Approximation.approx t.expandWith t.links.card := by
  have hlinks : ∀ f link q, t.expandWith f link = some q → link ∈ t.links := by
    intro f link q hq
    obtain ⟨target, htarget, -⟩ := Option.bind_eq_some_iff.1 hq
    exact mem_links_iff.2 (by rw [htarget]; rfl)
  exact Approximation.approx_stable expandWith_mono hlinks

/-- A walk goes where the links lead. -/
theorem resolves_of_walkWith {expand : List String → Option (List String)}
    (hexpand : ∀ link target r, t.readlink link = some target → expand link = some r →
      t.Resolves (origin target link) (components target) r) {p rest q : List String}
    (h : t.walkWith expand p rest = some q) : t.Resolves p rest q := by
  induction rest generalizing p with
  | nil =>
    obtain rfl := Option.some.inj h
    exact .nil p
  | cons name rest ih =>
    unfold walkWith at h
    split at h
    · rename_i hhere
      exact .here hhere (ih h)
    · rename_i hhere
      rw [not_or] at hhere
      split at h
      · rename_i hup
        subst hup
        exact .up (ih h)
      · rename_i hup
        have hname : IsName name := ⟨hhere.1, hhere.2, hup⟩
        cases hlink : t.readlink (p ++ [name]) with
        | none =>
          simp only [hlink] at h
          exact .down hname hlink (ih h)
        | some target =>
          simp only [hlink] at h
          obtain ⟨r, hr, hrest⟩ := Option.bind_eq_some_iff.1 h
          exact .link hname hlink (hexpand _ target r hlink hr) (ih hrest)

theorem resolves_of_expand (n : Nat) {link r : List String} {target : String} (htarget : t.readlink link = some target)
    (h : Approximation.approx t.expandWith n link = some r) : t.Resolves (origin target link) (components target) r := by
  induction n generalizing link r target with
  | zero => exact absurd h (by simp [Approximation.approx])
  | succ n ih =>
    obtain ⟨target', htarget', hwalk⟩ := Option.bind_eq_some_iff.1 h
    obtain rfl := Option.some.inj (htarget.symm.trans htarget')
    exact resolves_of_walkWith (fun _ _ _ hlink hr => ih hlink hr) hwalk

/-- `walk` computes the walk, and gives nothing exactly if the walk does not come to an end. -/
theorem walk_iff {p rest q : List String} : t.walk p rest = some q ↔ t.Resolves p rest q := by
  constructor
  · exact resolves_of_walkWith fun _ _ _ => resolves_of_expand _
  · intro h
    induction h with
    | nil => rfl
    | here hhere _ ih =>
      unfold walk walkWith
      rw [if_pos hhere]
      exact ih
    | up _ ih =>
      unfold walk walkWith
      rw [if_neg (by decide), if_pos rfl]
      exact ih
    | down hname hlink _ ih =>
      unfold walk walkWith
      rw [if_neg (by simp [hname.1, hname.2.1]), if_neg hname.2.2]
      simp only [hlink]
      exact ih
    | link hname hlink _ _ ihtarget ih =>
      unfold walk walkWith
      rw [if_neg (by simp [hname.1, hname.2.1]), if_neg hname.2.2]
      simp only [hlink]
      refine Option.bind_eq_some_iff.2 ⟨_, ?_, ih⟩
      rw [← expand_stable]
      exact Option.bind_eq_some_iff.2 ⟨_, hlink, ihtarget⟩

/-! ### The walk of the standard library -/

/-- `os.path.join` with the rest of a text, which starts over if it begins with a separator. -/
def joinRest (p : List String) : List String → List String
  | "" :: name :: rest => name :: rest
  | rest => p ++ rest

variable (t) in
/-- `_joinrealpath` on the rest of a text, if `follow` is where the links lead; an error has the path that it returns
without having resolved it. -/
def joinRealpathWith (follow : List String → Except (List String) (List String)) :
    List String → List String → Except (List String) (List String)
  | p, [] => .ok p
  | p, name :: rest =>
    if name = "" ∨ name = "." then joinRealpathWith follow p rest
    else if name = ".." then joinRealpathWith follow p.dropLast rest
    else
      match t.readlink (p ++ [name]) with
      | none => joinRealpathWith follow (p ++ [name]) rest
      | some _ =>
        match follow (p ++ [name]) with
        | .ok r => joinRealpathWith follow r rest
        | .error q => .error (joinRest q rest)

variable (t) in
/-- Where a link leads, while those of `seen` are being followed: one of them is a loop.  At most `n` more links are
followed inside of each other. -/
def followLink : Nat → Finset (List String) → List String → Except (List String) (List String)
  | 0, _, link => .error link
  | n + 1, seen, link =>
    if link ∈ seen then .error link
    else
      match t.readlink link with
      | none => .ok link
      | some target => t.joinRealpathWith (followLink n (insert link seen)) (origin target link) (components target)

variable (t) in
/-- `_joinrealpath`; there are no more different links to follow than the tree has. -/
def joinRealpath : List String → List String → Except (List String) (List String) :=
  t.joinRealpathWith (t.followLink (t.links.card + 1) ∅)

theorem joinRealpathWith_of_walkWith {expand : List String → Option (List String)}
    {follow : List String → Except (List String) (List String)}
    (hfollow : ∀ link r, expand link = some r → follow link = .ok r) {p rest q : List String}
    (h : t.walkWith expand p rest = some q) : t.joinRealpathWith follow p rest = .ok q := by
  induction rest generalizing p with
  | nil => exact congrArg Except.ok (Option.some.inj h)
  | cons name rest ih =>
    unfold walkWith at h
    unfold joinRealpathWith
    split
    · rename_i hhere
      rw [if_pos hhere] at h
      exact ih h
    · rename_i hhere
      rw [if_neg hhere] at h
      split
      · rename_i hup
        rw [if_pos hup] at h
        exact ih h
      · rename_i hup
        rw [if_neg hup] at h
        cases hlink : t.readlink (p ++ [name]) with
        | none =>
          simp only [hlink] at h ⊢
          exact ih h
        | some target =>
          simp only [hlink] at h ⊢
          obtain ⟨r, hr, hrest⟩ := Option.bind_eq_some_iff.1 h
          rw [hfollow _ r hr]
          exact ih hrest

/-- A link that leads somewhere is not met again while it is followed: what is met on the way leads somewhere with fewer
links inside of each other. -/
theorem followLink_of_approx {n fuel : Nat} {seen : Finset (List String)} {link r : List String}
    (h : Approximation.approx t.expandWith n link = some r)
    (hseen : ∀ s ∈ seen, Approximation.approx t.expandWith n s = none) (hfuel : n ≤ fuel) :
    t.followLink fuel seen link = .ok r := by
  induction n using Nat.strong_induction_on generalizing fuel seen link r with
  | _ n ih =>
    obtain ⟨k, hk, hnone, hfirst⟩ := Approximation.exists_first expandWith_mono h
    obtain ⟨target, htarget, hwalk⟩ := Option.bind_eq_some_iff.1 hfirst
    obtain ⟨fuel, rfl⟩ : ∃ m, fuel = m + 1 := Nat.exists_eq_succ_of_ne_zero (by omega)
    have hnot : link ∉ seen := fun hmem => absurd ((hseen link hmem).symm.trans h) (by simp)
    unfold followLink
    rw [if_neg hnot]
    simp only [htarget]
    refine joinRealpathWith_of_walkWith (fun l q hl => ih k hk hl (fun s hs => ?_) (by omega)) hwalk
    rcases Finset.mem_insert.1 hs with rfl | hs
    · exact hnone
    · by_contra hne
      obtain ⟨q, hq⟩ := Option.ne_none_iff_exists'.1 hne
      have hn := Approximation.approx_below_of_le expandWith_mono hk.le s q hq
      exact absurd ((hseen s hs).symm.trans hn) (by simp)

/-- Where the walk comes to an end, the standard library comes to the same. -/
theorem joinRealpath_of_walk {p rest q : List String} (h : t.walk p rest = some q) : t.joinRealpath p rest = .ok q :=
  joinRealpathWith_of_walkWith
    (fun _ _ hr => followLink_of_approx hr (fun _ hs => absurd hs (Finset.notMem_empty _)) (Nat.le_succ _)) h

/-- Every link leads somewhere. -/
def LoopFree (t : FileTree) : Prop :=
  ∀ link target, t.readlink link = some target → ∃ r, t.Resolves (origin target link) (components target) r

/-- Without loops every walk comes to an end. -/
theorem LoopFree.exists_resolves (h : t.LoopFree) (p rest : List String) : ∃ q, t.Resolves p rest q := by
  induction rest generalizing p with
  | nil => exact ⟨p, .nil p⟩
  | cons name rest ih =>
    by_cases hhere : name = "" ∨ name = "."
    · obtain ⟨q, hq⟩ := ih p
      exact ⟨q, .here hhere hq⟩
    · rw [not_or] at hhere
      by_cases hup : name = ".."
      · subst hup
        obtain ⟨q, hq⟩ := ih p.dropLast
        exact ⟨q, .up hq⟩
      · have hname : IsName name := ⟨hhere.1, hhere.2, hup⟩
        cases hlink : t.readlink (p ++ [name]) with
        | none =>
          obtain ⟨q, hq⟩ := ih (p ++ [name])
          exact ⟨q, .down hname hlink hq⟩
        | some target =>
          obtain ⟨r, hr⟩ := h _ target hlink
          obtain ⟨q, hq⟩ := ih r
          exact ⟨q, .link hname hlink hr hq⟩

/-! ### Canonical paths -/

theorem readlink_of_dir {p : List String} (h : t.node p = some .dir) : t.readlink p = none := by
  unfold readlink
  rw [h]

theorem node_parent {p : List String} {name : String} {node : Node} (h : t.node (p ++ [name]) = some node) :
    t.node p = some .dir := by
  have hparent := t.parent_eq _ (Dict.mem_keys_iff.2 ⟨node, h⟩) (by simp)
  rwa [List.dropLast_concat] at hparent

/-- What lies above something that exists is a directory. -/
theorem node_above {p q : List String} {node : Node} (h : t.node (p ++ q) = some node) (hq : q ≠ []) :
    t.node p = some .dir := by
  induction q using List.reverseRecOn generalizing node with
  | nil => exact absurd rfl hq
  | append_singleton q name ih =>
    rw [← List.append_assoc] at h
    have hparent := node_parent h
    by_cases hnil : q = []
    · rwa [hnil, List.append_nil] at hparent
    · exact ih hparent hnil

/-- A path of proper names on which there is no symbolic link. -/
structure Canonical (t : FileTree) (p : List String) : Prop where
  names : ∀ name ∈ p, IsName name
  free : ∀ q, q <+: p → t.readlink q = none

theorem canonical_nil : t.Canonical [] where
  names name h := absurd h List.not_mem_nil
  free q h := by
    rw [List.prefix_nil.1 h]
    exact readlink_of_dir t.root_eq

theorem Canonical.of_prefix {p q : List String} (h : t.Canonical p) (hq : q <+: p) : t.Canonical q where
  names name hname := h.names name (hq.subset hname)
  free r hr := h.free r (hr.trans hq)

theorem Canonical.snoc {p : List String} {name : String} (h : t.Canonical p) (hname : IsName name)
    (hlink : t.readlink (p ++ [name]) = none) : t.Canonical (p ++ [name]) where
  names n hn := by
    rcases List.mem_append.1 hn with hn | hn
    · exact h.names n hn
    · rwa [List.mem_singleton.1 hn]
  free q hq := by
    rcases List.prefix_concat_iff.1 hq with rfl | hq
    · exact hlink
    · exact h.free q hq

/-- A directory that exists under its path has a canonical one. -/
theorem canonical_of_dir {p : List String} (h : t.node p = some .dir) : t.Canonical p where
  names name hname := (t.names p (Dict.mem_keys_iff.2 ⟨.dir, h⟩) name hname).1
  free q hq := by
    obtain ⟨r, rfl⟩ := hq
    by_cases hr : r = []
    · rw [hr, List.append_nil] at h
      exact readlink_of_dir h
    · exact readlink_of_dir (node_above h hr)

/-- A walk that starts from a canonical path ends at one. -/
theorem Resolves.canonical {p rest q : List String} (h : t.Resolves p rest q) (hp : t.Canonical p) : t.Canonical q := by
  induction h with
  | nil => exact hp
  | here _ _ ih => exact ih hp
  | up _ ih => exact ih (hp.of_prefix (List.dropLast_prefix _))
  | down hname hlink _ ih => exact ih (hp.snoc hname hlink)
  | link hname hlink _ _ ihtarget ih =>
    refine ih (ihtarget ?_)
    unfold origin
    split
    · exact canonical_nil
    · rwa [List.dropLast_concat]

theorem Resolves.append {p rest q rest' r : List String} (h : t.Resolves p rest q) (h' : t.Resolves q rest' r) :
    t.Resolves p (rest ++ rest') r := by
  induction h with
  | nil => exact h'
  | here hhere _ ih => exact .here hhere (ih h')
  | up _ ih => exact .up (ih h')
  | down hname hlink _ ih => exact .down hname hlink (ih h')
  | link hname hlink htarget _ _ ih => exact .link hname hlink htarget (ih h')

/-- The walk along a canonical path goes straight on. -/
theorem Canonical.resolves {p rest : List String} (h : t.Canonical (p ++ rest)) : t.Resolves p rest (p ++ rest) := by
  induction rest generalizing p with
  | nil =>
    rw [List.append_nil]
    exact .nil p
  | cons name rest ih =>
    have hsnoc : p ++ name :: rest = (p ++ [name]) ++ rest := by rw [List.append_assoc]; rfl
    refine .down (h.names name (by simp)) (h.free _ ?_) ?_
    · rw [hsnoc]
      exact List.prefix_append ..
    · rw [hsnoc] at h ⊢
      exact ih h

theorem canonicalForm_iff {base q : List String} {text : String} :
    t.CanonicalForm base text q ↔ t.walk (if IsAbsolute text then [] else base) (components text) = some q :=
  walk_iff.symm

theorem CanonicalForm.canonical {base q : List String} {text : String} (h : t.CanonicalForm base text q)
    (hbase : t.Canonical base) : t.Canonical q := by
  refine Resolves.canonical h ?_
  split
  · exact canonical_nil
  · exact hbase

theorem Canonical.walk_eq {p : List String} (h : t.Canonical p) : t.walk [] p = some p :=
  walk_iff.2 (Canonical.resolves (p := []) h)

/-- The parts that are left out when a path is parsed do not matter. -/
theorem walkWith_filter (expand : List String → Option (List String)) (p rest : List String) :
    t.walkWith expand p (rest.filter fun name => name ≠ "" ∧ name ≠ ".") = t.walkWith expand p rest := by
  induction rest generalizing p with
  | nil => rfl
  | cons name rest ih =>
    by_cases hhere : name = "" ∨ name = "."
    · rw [List.filter_cons_of_neg (by simpa [← not_or] using hhere), ih]
      conv_rhs => unfold walkWith
      rw [if_pos hhere]
    · rw [List.filter_cons_of_pos (by simpa [← not_or] using hhere)]
      unfold walkWith
      simp only [ih]

end FileTree
