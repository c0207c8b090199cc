import Mathlib.Data.List.Basic
import Mathlib.Data.String.Basic

/-!
# Files, directories and symbolic links

A file system is a finite tree of nodes. A path is a string: its parts are looked up one after the
other from the root or from the working directory, and a link met on the way is replaced by where
its target leads from the directory the link is in (`locate`).

* `content`, `readLink`, `readDir`: what a process with a given working directory sees.
* **`content_join`**, `readLink_join`: an entry of a directory, opened under the directory's
  path, is the node the directory lists under its name.
-/

namespace FileSystem

/-! ## Paths -/

namespace Path

/-- The strings between the separators of a path. -/
def parts (path : String) : List String := (path.toList.splitOn '/').map String.ofList

/-- Whether the path starts at the root. -/
def isAbsolute (path : String) : Bool := path.toList.head? == some '/'

/-- The path of `name` in the directory `dir`. -/
def join (dir name : String) : String :=
  if isAbsolute name then name
  else if dir = "" ∨ dir.toList.getLast? = some '/' then dir ++ name
  else dir ++ "/" ++ name

/-- The last part of a path, where empty parts and `.` are passed over; none if it is `..`. -/
def fileName (path : String) : Option String :=
  match ((parts path).filter fun p => p ≠ "" ∧ p ≠ ".").getLast? with
  | some ".." => none
  | other => other

/-- What a directory can list: a non-empty string without a separator, not `.` or `..`. -/
def IsName (name : String) : Prop :=
  name ≠ "" ∧ name ≠ "." ∧ name ≠ ".." ∧ '/' ∉ name.toList

instance : DecidablePred IsName := fun _ => inferInstanceAs (Decidable (_ ∧ _ ∧ _ ∧ _))

section

variable {dir name : String}

theorem parts_name (h : IsName name) : parts name = [name] := by
  rw [parts, List.splitOn_eq_singleton h.2.2.2, List.map_singleton, String.ofList_toList]

theorem not_isAbsolute_name (h : IsName name) : isAbsolute name = false := by
  rw [isAbsolute, beq_eq_false_iff_ne]
  exact fun hhead => h.2.2.2 (List.mem_of_mem_head? hhead)

theorem join_ne_empty (h : IsName name) : join dir name ≠ "" := by
  unfold join
  split
  · exact h.1
  · split <;> simp [h.1]

/-- A separator at the end of a path leaves an empty part. -/
theorem parts_of_getLast (hlast : dir.toList.getLast? = some '/') :
    ∃ xs, parts dir = xs ++ [""] := by
  obtain ⟨xs, hxs⟩ := List.getLast?_eq_some_iff.mp hlast
  refine ⟨(xs.splitOn '/').map String.ofList, ?_⟩
  rw [parts, hxs, List.splitOn_append_cons_self, List.map_append]
  rfl

/-- The parts of a joined path: those of the directory, without the empty one that a separator at
its end leaves, and the name. -/
theorem parts_join (h : IsName name) (hdir : dir ≠ "") :
    parts (join dir name) =
      (if dir.toList.getLast? = some '/' then (parts dir).dropLast else parts dir) ++ [name] := by
  have hname := parts_name h
  unfold parts at hname ⊢
  rw [join, if_neg (by rw [not_isAbsolute_name h]; decide)]
  by_cases hlast : dir.toList.getLast? = some '/'
  · obtain ⟨xs, hxs⟩ := List.getLast?_eq_some_iff.mp hlast
    rw [if_pos (.inr hlast), if_pos hlast, String.toList_append, hxs, List.append_assoc,
      List.singleton_append, List.splitOn_append_cons_self, List.splitOn_append_cons_self,
      List.map_append, List.map_append, hname]
    simp
  · rw [if_neg (by simp [hdir, hlast]), if_neg hlast, String.toList_append, String.toList_append,
      List.append_assoc]
    change List.map _ (List.splitOn '/' (dir.toList ++ '/' :: name.toList)) = _
    rw [List.splitOn_append_cons_self, List.map_append, hname]

theorem isAbsolute_join (h : IsName name) (hdir : dir ≠ "") :
    isAbsolute (join dir name) = isAbsolute dir := by
  have hne : dir.toList ≠ [] := by simpa using hdir
  unfold isAbsolute at *
  rw [join, if_neg (by rw [not_isAbsolute_name h]; decide)]
  split <;> simp [String.toList_append, List.head?_append_of_ne_nil _ hne]

theorem fileName_of_parts {path : String} {xs : List String} (h : IsName name)
    (hparts : parts path = xs ++ [name]) : fileName path = some name := by
  have hlast : ((parts path).filter fun p => p ≠ "" ∧ p ≠ ".").getLast? = some name := by
    rw [hparts, List.filter_append]
    simp [h.1, h.2.1]
  unfold fileName
  rw [hlast]
  split
  · rename_i heq
    exact absurd (Option.some.inj heq) h.2.2.1
  · rfl

theorem fileName_name (h : IsName name) : fileName name = some name :=
  fileName_of_parts h (show parts name = [] ++ [name] from parts_name h)

/-- The file name of a directory's entry is its name. -/
theorem fileName_join (h : IsName name) (hdir : dir ≠ "") :
    fileName (join dir name) = some name :=
  fileName_of_parts h (parts_join h hdir)

end

end Path

/-! ## The tree -/

/-- What a name stands for; `α` is what a regular file holds. -/
inductive Node (α : Type) where
  | file (content : α)
  | dir
  | link (target : String)
  | other

/-- `DirEntry::file_type`: the kind of node, where a link is not followed. -/
inductive FileType where
  | file
  | dir
  | symlink
  | other
  deriving DecidableEq, Repr

def Node.fileType {α : Type} : Node α → FileType
  | .file _ => .file
  | .dir => .dir
  | .link _ => .symlink
  | .other => .other

/-- What a regular file holds. -/
def Node.content {α : Type} : Node α → Option α
  | .file content => some content
  | _ => none

/-- A place in the tree: the names on the way up to the root. -/
abbrev Location := List String

end FileSystem

open FileSystem

/-- A file system: the nodes below the root, each place listed once and every name a name. `depth`
is how many links may lead through one another. -/
structure FileSystem (α : Type) where
  nodes : List (Location × Node α)
  nodup : (nodes.map Prod.fst).Nodup
  named : ∀ e ∈ nodes, ∀ name ∈ e.1, Path.IsName name
  depth : Nat

namespace FileSystem

variable {α : Type} (fs : FileSystem α)

/-- The node at a place; the root is a directory. -/
def node : Location → Option (Node α)
  | [] => some .dir
  | loc => fs.nodes.lookup loc

/-- Whether a place is a directory. -/
def isDir (loc : Location) : Bool :=
  match fs.node loc with
  | some .dir => true
  | _ => false

/-- The names in a directory. -/
def names (loc : Location) : List String :=
  fs.nodes.filterMap fun e =>
    match e.1 with
    | name :: parent => if parent = loc then some name else none
    | [] => none

theorem mem_names {loc : Location} {name : String} :
    name ∈ fs.names loc ↔ (fs.node (name :: loc)).isSome := by
  rw [node, List.lookup_isSome_iff, names, List.mem_filterMap]
  · constructor
    · rintro ⟨⟨l, n⟩, he, hl⟩
      refine ⟨_, he, ?_⟩
      dsimp only at hl ⊢
      split at hl
      · split at hl
        · rename_i hp
          rw [← Option.some.inj hl, ← hp]
          exact beq_self_eq_true _
        · cases hl
      · cases hl
    · rintro ⟨e, he, hk⟩
      refine ⟨e, he, ?_⟩
      rw [← eq_of_beq hk]
      simp
  · simp

theorem isName_of_mem_names {loc : Location} {name : String} (h : name ∈ fs.names loc) :
    Path.IsName name := by
  rw [mem_names, node, List.lookup_isSome_iff] at h
  · obtain ⟨e, he, hk⟩ := h
    exact fs.named e he name (by rw [← eq_of_beq hk]; exact List.mem_cons_self)
  · simp

/-! ## Where a path leads -/

/-- One part of a path looked up in the directory `loc`; `follow` says where a link leads. -/
def step (follow : Location → String → Option Location) (loc : Location) (part : String) :
    Option Location :=
  if fs.isDir loc = false then none
  else if part = "" ∨ part = "." then some loc
  else if part = ".." then some loc.tail
  else
    match fs.node (part :: loc) with
    | some (.link target) => follow loc target
    | some _ => some (part :: loc)
    | none => none

/-- Where `path` leads from the directory `cwd`, through at most `depth` nested links. -/
def locateWithin : Nat → Location → String → Option Location
  | 0, _, _ => none
  | depth + 1, cwd, path =>
    if path = "" then none
    else (Path.parts path).foldlM (fs.step (locateWithin depth))
      (if Path.isAbsolute path then [] else cwd)

/-- Where `path` leads for a process whose working directory is `cwd`. -/
def locate (cwd : Location) (path : String) : Option Location := fs.locateWithin fs.depth cwd path

/-- What opening `path` gives: what the regular file it leads to holds. -/
def content (cwd : Location) (path : String) : Option α :=
  ((fs.locate cwd path).bind fs.node).bind Node.content

/-- `Path::is_file`. -/
def isFile (cwd : Location) (path : String) : Bool := (fs.content cwd path).isSome

/-- The directory a path's last part is looked up in. -/
def locateParent : Nat → Location → String → Option Location
  | 0, _, _ => none
  | depth + 1, cwd, path =>
    if path = "" then none
    else (Path.parts path).dropLast.foldlM (fs.step (fs.locateWithin depth))
      (if Path.isAbsolute path then [] else cwd)

/-- `std::fs::read_link`: the target a link stores, as it was written. -/
def readLink (cwd : Location) (path : String) : Option String := do
  let loc ← fs.locateParent fs.depth cwd path
  let part ← (Path.parts path).getLast?
  match fs.node (part :: loc) with
  | some (.link target) => some target
  | _ => none

/-- An order in which each directory is listed. -/
structure Order where
  listed : Location → List String
  perm : ∀ loc, (listed loc).Perm (fs.names loc)

/-- `std::fs::DirEntry`. -/
structure DirEntry where
  root : String
  name : String
  fileType : FileType

/-- `DirEntry::path`. -/
def DirEntry.path (entry : DirEntry) : String := Path.join entry.root entry.name

/-- `std::fs::read_dir`. -/
def readDir (order : fs.Order) (cwd : Location) (path : String) : Option (List DirEntry) := do
  let loc ← fs.locate cwd path
  if fs.isDir loc then
    some ((order.listed loc).filterMap fun name =>
      (fs.node (name :: loc)).map fun node => { root := path, name, fileType := node.fileType })
  else none

/-! ## The entries of a directory -/

section

variable {fs} {cwd loc : Location} {dir name : String}

theorem step_name {follow : Location → String → Option Location} (hloc : fs.isDir loc = true)
    (hname : Path.IsName name) :
    fs.step follow loc name =
      match fs.node (name :: loc) with
      | some (.link target) => follow loc target
      | some _ => some (name :: loc)
      | none => none := by
  rw [step, if_neg (by simp [hloc]), if_neg (by simp [hname.1, hname.2.1]), if_neg hname.2.2.1]

/-- A path leads somewhere only where some link may be followed. -/
theorem exists_depth {path : String} (h : fs.locate cwd path = some loc) :
    ∃ depth, fs.depth = depth + 1 ∧ fs.locateWithin (depth + 1) cwd path = some loc := by
  unfold locate at h
  cases hdepth : fs.depth with
  | zero =>
    rw [hdepth] at h
    cases h
  | succ depth => exact ⟨depth, rfl, hdepth ▸ h⟩

/-- The empty path leads nowhere. -/
theorem ne_empty_of_locate {path : String} (h : fs.locate cwd path = some loc) : path ≠ "" := by
  rintro rfl
  obtain ⟨depth, -, hwithin⟩ := exists_depth h
  simp [locateWithin] at hwithin

/-- A joined path's parts but the last lead where the directory's path leads. -/
theorem foldlM_join {depth : Nat} (hdir : fs.locateWithin (depth + 1) cwd dir = some loc)
    (hname : Path.IsName name) :
    dir ≠ "" ∧
      (Path.parts (Path.join dir name)).dropLast.foldlM (fs.step (fs.locateWithin depth))
        (if Path.isAbsolute (Path.join dir name) then [] else cwd) = some loc := by
  rw [locateWithin] at hdir
  split at hdir
  · cases hdir
  · rename_i hne
    refine ⟨hne, ?_⟩
    rw [Path.parts_join hname hne, List.dropLast_concat, Path.isAbsolute_join hname hne]
    by_cases hlast : dir.toList.getLast? = some '/'
    · obtain ⟨xs, hxs⟩ := Path.parts_of_getLast hlast
      rw [hxs, List.foldlM_append] at hdir
      obtain ⟨loc', hfold, hstep⟩ := Option.bind_eq_some_iff.mp hdir
      rw [if_pos hlast, hxs, List.dropLast_concat, hfold]
      obtain ⟨-, rfl⟩ : fs.isDir loc' = true ∧ loc' = loc := by simpa [step] using hstep
      rfl
    · rw [if_neg hlast]
      exact hdir

/-- The path of a directory's entry leads to the node listed there, through the link if it is
one. -/
theorem locateWithin_join {depth : Nat} (hdir : fs.locateWithin (depth + 1) cwd dir = some loc)
    (hloc : fs.isDir loc = true) (hname : Path.IsName name) :
    fs.locateWithin (depth + 1) cwd (Path.join dir name) =
      match fs.node (name :: loc) with
      | some (.link target) => fs.locateWithin depth loc target
      | some _ => some (name :: loc)
      | none => none := by
  obtain ⟨hne, hfold⟩ := foldlM_join hdir hname
  have hparts := Path.parts_join hname hne
  rw [locateWithin, if_neg (Path.join_ne_empty hname), hparts, List.foldlM_append]
  rw [hparts, List.dropLast_concat] at hfold
  rw [hfold, ← step_name hloc hname]
  simp

/-- Opening an entry that is not a link gives what its node holds. -/
theorem content_join (hdir : fs.locate cwd dir = some loc) (hloc : fs.isDir loc = true)
    (hname : Path.IsName name) {node : Node α} (hnode : fs.node (name :: loc) = some node)
    (hlink : node.fileType ≠ .symlink) : fs.content cwd (Path.join dir name) = node.content := by
  obtain ⟨depth, hdepth, hwithin⟩ := exists_depth hdir
  have hjoin : fs.locate cwd (Path.join dir name) = some (name :: loc) := by
    rw [locate, hdepth, locateWithin_join hwithin hloc hname, hnode]
    cases node with
    | link target => exact absurd rfl hlink
    | _ => rfl
  rw [FileSystem.content, hjoin, Option.bind_some, hnode, Option.bind_some]

/-- A name that the directory does not list leads nowhere. -/
theorem locate_join_of_none (hdir : fs.locate cwd dir = some loc) (hloc : fs.isDir loc = true)
    (hname : Path.IsName name) (hnode : fs.node (name :: loc) = none) :
    fs.locate cwd (Path.join dir name) = none := by
  obtain ⟨depth, hdepth, hwithin⟩ := exists_depth hdir
  rw [locate, hdepth, locateWithin_join hwithin hloc hname, hnode]

/-- What an entry's link stores. -/
theorem readLink_join (hdir : fs.locate cwd dir = some loc) (hname : Path.IsName name)
    {target : String} (hnode : fs.node (name :: loc) = some (.link target)) :
    fs.readLink cwd (Path.join dir name) = some target := by
  obtain ⟨depth, hdepth, hwithin⟩ := exists_depth hdir
  obtain ⟨hne, hfold⟩ := foldlM_join hwithin hname
  rw [readLink, hdepth, locateParent, if_neg (Path.join_ne_empty hname), hfold]
  simp [Path.parts_join hname hne, hnode]

end

end FileSystem
