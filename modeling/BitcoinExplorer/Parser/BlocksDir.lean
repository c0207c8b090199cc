import BitcoinExplorer.Lib.FileSystem
import BitcoinExplorer.Parser.BlkFile

/-!
# `src/parser/blk_file.rs`: scanning the blocks directory

`scan_blocks_dir` lists the directory, replaces a symbolic link by its target and files the path
under the number its file name has.

* `LeadsBack`: every file found under a number is the directory's entry of that number, and every
  entry of a number is found under it.
* `KeepsNumbers.leadsBack`, `OnlyFiles.leadsBack`: so it is where links keep the numbers and open
  from the working directory, and where there are no links.
* **`scanBlocksDir_exact_iff`**: the scan maps each number to its entry, in every listing order,
  exactly when everything leads back. The number and the path it goes by are those of a link's
  target as it is stored, so a link to a file of another name, or relative to the blocks directory,
  is filed wrongly.
-/

namespace BitcoinExplorer

open Rust FileSystem

/-- The files a process sees: a file system whose regular files hold bytes. -/
abbrev Files := FileSystem (List UInt8)

/-! ## The scan -/

/-- `resolve_path`. -/
def resolvePath (fs : Files) (cwd : Location) (entry : DirEntry) : Outcome Error PathBuf :=
  if entry.fileType = .symlink then .ofOption .io (fs.readLink cwd entry.path)
  else .ok entry.path

/-- The digits of a decimal number; at least one. -/
def parseDigits (s : List Char) : Option Nat :=
  if s ≠ [] ∧ s.all Char.isDigit then some (s.foldl (fun n c => 10 * n + (c.toNat - '0'.toNat)) 0)
  else none

/-- `str::parse::<i32>`: an optional sign and digits, within the range of the type. -/
def parseI32 : List Char → Option Int
  | '-' :: s => (parseDigits s).bind fun n => if n ≤ 2 ^ 31 then some (-n) else none
  | '+' :: s => (parseDigits s).bind fun n => if n < 2 ^ 31 then some n else none
  | s => (parseDigits s).bind fun n => if n < 2 ^ 31 then some n else none

/-- What stands between `blk` and `.dat` in a file name. -/
def blkIndexText (fileName : String) : Option (List Char) := do
  let s ← "blk".toList.isPrefixOf? fileName.toList
  ".dat".toList.isSuffixOf? s

/-- `parse_blk_index`. -/
def parseBlkIndex (path : PathBuf) : Option Int := do
  let fileName ← Path.fileName path
  let blkIndex ← blkIndexText fileName
  parseI32 blkIndex

/-- The loop of `scan_blocks_dir`. -/
def scanEntries (fs : Files) (cwd : Location) :
    List DirEntry → Std.HashMap Int PathBuf → Outcome Error (Std.HashMap Int PathBuf)
  | [], blkFiles => .ok blkFiles
  | entry :: entries, blkFiles => do
    let path ← resolvePath fs cwd entry
    if fs.isFile cwd path then
      match parseBlkIndex path with
      | some index => scanEntries fs cwd entries (blkFiles.insert index path)
      | none => scanEntries fs cwd entries blkFiles
    else scanEntries fs cwd entries blkFiles

/-- `scan_blocks_dir`, for a process in `cwd` that is given the entries in `order`. -/
def scanBlocksDir (fs : Files) (order : fs.Order) (cwd : Location) (blocksDir : PathBuf) :
    Outcome Error (Std.HashMap Int PathBuf) := do
  let entries ← .ofOption .io (fs.readDir order cwd blocksDir)
  let blkFiles ← scanEntries fs cwd entries ∅
  if blkFiles.isEmpty then .err .emptyBlockFiles else .ok blkFiles

/-! ## What the scan has to find -/

/-- The number of an entry named `blk<digits>.dat`. -/
def blkNumber (name : String) : Option Nat := (blkIndexText name).bind parseDigits

/-- What a scan of the directory at `loc` has to return: a map whose keys are the numbers of the
directory's entries and whose path for a number opens as the entry of that number does, or the
error that there is no entry. -/
def MapsToEntries (fs : Files) (cwd loc : Location) (blocksDir : PathBuf) :
    Outcome Error (Std.HashMap Int PathBuf) → Prop
  | .ok files =>
    (∀ index : Int, files[index]?.isSome ↔
        ∃ name ∈ fs.names loc, ∃ n : Nat, blkNumber name = some n ∧ index = n) ∧
      ∀ name ∈ fs.names loc, ∀ (n : Nat) (path : PathBuf), blkNumber name = some n →
        files[(n : Int)]? = some path →
        fs.content cwd path = fs.content cwd (Path.join blocksDir name)
  | .err e => e = .emptyBlockFiles ∧ ∀ name ∈ fs.names loc, blkNumber name = none
  | .panic => False

/-- The scan returns that in every listing order. -/
def ScanExact (fs : Files) (cwd loc : Location) (blocksDir : PathBuf) : Prop :=
  ∀ order : fs.Order, MapsToEntries fs cwd loc blocksDir (scanBlocksDir fs order cwd blocksDir)

/-- The entry `name` is taken for block file `index`: it is a regular file and its name says so, or
it is a link whose target, as it is stored and opened from the working directory, is a regular file
and the target's name says so. -/
def TakenFor (fs : Files) (cwd loc : Location) (name : String) (index : Int)
    (content : List UInt8) : Prop :=
  match fs.node (name :: loc) with
  | some (.file bytes) => parseBlkIndex name = some index ∧ bytes = content
  | some (.link target) => parseBlkIndex target = some index ∧ fs.content cwd target = some content
  | _ => False

/-- What is taken for a block file is the entry of that number, and each of these entries is taken
for its number, itself or through another. -/
structure LeadsBack (fs : Files) (cwd loc : Location) (blocksDir : PathBuf) : Prop where
  numbered : ∀ name ∈ fs.names loc, ∀ index content, TakenFor fs cwd loc name index content →
    ∃ entry ∈ fs.names loc, ∃ n : Nat, blkNumber entry = some n ∧ index = n
  same : ∀ name ∈ fs.names loc, ∀ index content, TakenFor fs cwd loc name index content →
    ∀ entry ∈ fs.names loc, ∀ n : Nat, blkNumber entry = some n → index = n →
      fs.content cwd (Path.join blocksDir entry) = some content
  found : ∀ entry ∈ fs.names loc, ∀ n : Nat, blkNumber entry = some n →
    ∃ name ∈ fs.names loc, ∃ content, TakenFor fs cwd loc name n content

/-! ## What the loop files -/

/-- The paths filed one after the other; the last one stays. -/
def insertAll (files : Std.HashMap Int PathBuf) (l : List (Int × PathBuf)) :
    Std.HashMap Int PathBuf :=
  l.foldl (fun files e => files.insert e.1 e.2) files

theorem isSome_insertAll (files : Std.HashMap Int PathBuf) (l : List (Int × PathBuf))
    (index : Int) :
    (insertAll files l)[index]?.isSome ↔ files[index]?.isSome ∨ ∃ path, (index, path) ∈ l := by
  induction l generalizing files with
  | nil => simp [insertAll]
  | cons e l ih =>
    obtain ⟨i, p⟩ := e
    change (insertAll (files.insert i p) l)[index]?.isSome ↔ _
    rw [ih, Std.HashMap.getElem?_insert]
    by_cases hi : i = index
    · simp [hi]
    · simp [hi, Ne.symm hi]

theorem mem_of_insertAll {l : List (Int × PathBuf)} {files : Std.HashMap Int PathBuf}
    {index : Int} {path : PathBuf} (h : (insertAll files l)[index]? = some path) :
    (index, path) ∈ l ∨ files[index]? = some path := by
  induction l generalizing files with
  | nil => exact .inr h
  | cons e l ih =>
    obtain ⟨i, p⟩ := e
    change (insertAll (files.insert i p) l)[index]? = some path at h
    obtain hmem | hfiles := ih h
    · exact .inl (List.mem_cons_of_mem _ hmem)
    · rw [Std.HashMap.getElem?_insert] at hfiles
      by_cases hi : i = index
      · simp only [hi, beq_self_eq_true, if_true, Option.some.injEq] at hfiles
        simp [hi, hfiles]
      · exact .inr (by simpa [hi] using hfiles)

theorem isEmpty_insertAll (files : Std.HashMap Int PathBuf) (l : List (Int × PathBuf)) :
    (insertAll files l).isEmpty = true ↔ files.isEmpty = true ∧ l = [] := by
  induction l generalizing files with
  | nil => simp [insertAll]
  | cons e l ih =>
    change (insertAll (files.insert e.1 e.2) l).isEmpty = true ↔ _
    rw [ih, Std.HashMap.isEmpty_insert]
    simp

theorem insertAll_concat (files : Std.HashMap Int PathBuf) (l : List (Int × PathBuf))
    (index : Int) (path : PathBuf) :
    (insertAll files (l ++ [(index, path)]))[index]? = some path := by
  simp [insertAll]

section

variable {fs : Files} {cwd loc : Location} {blocksDir : PathBuf}

/-- The path an entry is read under: a link's target as it is stored, else the entry's own. -/
def readUnder (fs : Files) (loc : Location) (blocksDir : PathBuf) (name : String) : PathBuf :=
  match fs.node (name :: loc) with
  | some (.link target) => target
  | _ => Path.join blocksDir name

/-- What the loop files for the entry `name`, if anything. -/
def filed (fs : Files) (cwd loc : Location) (blocksDir : PathBuf) (name : String) :
    Option (Int × PathBuf) :=
  if fs.isFile cwd (readUnder fs loc blocksDir name) then
    (parseBlkIndex (readUnder fs loc blocksDir name)).map (·, readUnder fs loc blocksDir name)
  else none

/-- The entry `read_dir` gives for a name. -/
def entryOf (fs : Files) (loc : Location) (blocksDir : PathBuf) (name : String) :
    Option DirEntry :=
  (fs.node (name :: loc)).map fun node => { root := blocksDir, name, fileType := node.fileType }

/-- A path with a name for its last part has the number of the name. -/
theorem parseBlkIndex_join {name : String} (hname : Path.IsName name) (hdir : blocksDir ≠ "") :
    parseBlkIndex (Path.join blocksDir name) = parseBlkIndex name := by
  rw [parseBlkIndex, parseBlkIndex, Path.fileName_join hname hdir, Path.fileName_name hname]

theorem resolvePath_entry (hdir : fs.locate cwd blocksDir = some loc) {name : String}
    (hname : Path.IsName name) {node : Node (List UInt8)}
    (hnode : fs.node (name :: loc) = some node) :
    resolvePath fs cwd { root := blocksDir, name, fileType := node.fileType } =
      .ok (readUnder fs loc blocksDir name) := by
  rw [resolvePath, readUnder, hnode]
  cases node with
  | link target => exact congrArg (Outcome.ofOption Error.io) (readLink_join hdir hname hnode)
  | _ => rfl

/-- **The loop** files, entry by entry in listing order, what each entry is filed under. -/
theorem scanEntries_eq (hdir : fs.locate cwd blocksDir = some loc) :
    ∀ {listed : List String} (files : Std.HashMap Int PathBuf),
      (∀ name ∈ listed, name ∈ fs.names loc) →
      scanEntries fs cwd (listed.filterMap (entryOf fs loc blocksDir)) files =
        .ok (insertAll files (listed.filterMap (filed fs cwd loc blocksDir)))
  | [], files, _ => rfl
  | name :: listed, files, hmem => by
    have ih : ∀ files, scanEntries fs cwd (listed.filterMap (entryOf fs loc blocksDir)) files =
        .ok (insertAll files (listed.filterMap (filed fs cwd loc blocksDir))) :=
      fun files => scanEntries_eq hdir files fun n hn => hmem n (List.mem_cons_of_mem _ hn)
    have hin := hmem name List.mem_cons_self
    obtain ⟨node, hnode⟩ := Option.isSome_iff_exists.mp (fs.mem_names.mp hin)
    have hentry : entryOf fs loc blocksDir name =
        some { root := blocksDir, name, fileType := node.fileType } := by
      rw [entryOf, hnode, Option.map_some]
    rw [List.filterMap_cons_some hentry, scanEntries,
      resolvePath_entry hdir (fs.isName_of_mem_names hin) hnode, Outcome.ok_bind,
      List.filterMap_cons, filed]
    split
    · cases hindex : parseBlkIndex (readUnder fs loc blocksDir name) with
      | none => exact ih files
      | some index => exact ih (files.insert index _)
    · exact ih files

/-- **The scan**, for a blocks directory. -/
theorem scanBlocksDir_eq (hdir : fs.locate cwd blocksDir = some loc) (hloc : fs.isDir loc = true)
    (order : fs.Order) :
    scanBlocksDir fs order cwd blocksDir =
      if (order.listed loc).filterMap (filed fs cwd loc blocksDir) = [] then .err .emptyBlockFiles
      else .ok (insertAll ∅ ((order.listed loc).filterMap (filed fs cwd loc blocksDir))) := by
  have hread : fs.readDir order cwd blocksDir =
      some ((order.listed loc).filterMap (entryOf fs loc blocksDir)) := by
    rw [readDir, hdir]
    exact if_pos hloc
  rw [scanBlocksDir, hread, Outcome.ofOption, Outcome.ok_bind,
    scanEntries_eq hdir ∅ fun name hname => (order.perm loc).mem_iff.mp hname, Outcome.ok_bind]
  simp only [isEmpty_insertAll, Std.HashMap.isEmpty_empty, true_and]

/-- An entry is taken for a number when the path it is read under opens and has that number. -/
theorem takenFor_iff (hdir : fs.locate cwd blocksDir = some loc) (hloc : fs.isDir loc = true)
    {name : String} (hin : name ∈ fs.names loc) {index : Int} {content : List UInt8} :
    TakenFor fs cwd loc name index content ↔
      parseBlkIndex (readUnder fs loc blocksDir name) = some index ∧
        fs.content cwd (readUnder fs loc blocksDir name) = some content := by
  obtain ⟨node, hnode⟩ := Option.isSome_iff_exists.mp (fs.mem_names.mp hin)
  have hname := fs.isName_of_mem_names hin
  have hopen := content_join hdir hloc hname hnode
  rw [TakenFor, readUnder, hnode]
  cases node with
  | link target => exact Iff.rfl
  | file bytes =>
    have hbytes : fs.content cwd (Path.join blocksDir name) = some bytes := hopen nofun
    simp [parseBlkIndex_join hname (ne_empty_of_locate hdir), hbytes]
  | dir =>
    have hnone : fs.content cwd (Path.join blocksDir name) = none := hopen nofun
    simp [hnone]
  | other =>
    have hnone : fs.content cwd (Path.join blocksDir name) = none := hopen nofun
    simp [hnone]

/-- What the loop files is the path of an entry that is taken for the number. -/
theorem mem_filed (hdir : fs.locate cwd blocksDir = some loc) (hloc : fs.isDir loc = true)
    {order : fs.Order} {index : Int} {path : PathBuf} :
    (index, path) ∈ (order.listed loc).filterMap (filed fs cwd loc blocksDir) ↔
      ∃ name ∈ fs.names loc, ∃ content, fs.content cwd path = some content ∧
        TakenFor fs cwd loc name index content ∧ path = readUnder fs loc blocksDir name := by
  simp only [List.mem_filterMap, (order.perm loc).mem_iff]
  refine exists_congr fun name => and_congr_right fun hin => ?_
  rw [filed, Option.ite_none_right_eq_some, isFile, Option.isSome_iff_exists,
    Option.map_eq_some_iff]
  simp only [takenFor_iff hdir hloc hin, Prod.mk.injEq]
  constructor
  · rintro ⟨⟨content, hcontent⟩, _, hindex, rfl, rfl⟩
    exact ⟨content, hcontent, ⟨hindex, hcontent⟩, rfl⟩
  · rintro ⟨content, hcontent, ⟨hindex, -⟩, rfl⟩
    exact ⟨⟨content, hcontent⟩, _, hindex, rfl, rfl⟩

/-- An entry that is taken for a number has its path filed under it. -/
theorem exists_mem_filed (hdir : fs.locate cwd blocksDir = some loc) (hloc : fs.isDir loc = true)
    (order : fs.Order) {name : String} (hin : name ∈ fs.names loc) {index : Int}
    {content : List UInt8} (htaken : TakenFor fs cwd loc name index content) :
    ∃ path, (index, path) ∈ (order.listed loc).filterMap (filed fs cwd loc blocksDir) :=
  ⟨_, (mem_filed hdir hloc).mpr
    ⟨name, hin, content, ((takenFor_iff hdir hloc hin).mp htaken).2, htaken, rfl⟩⟩

/-! ## Every listing order -/

/-- An order in which an entry of a directory is listed last. -/
theorem exists_order_last {name : String} (hin : name ∈ fs.names loc) :
    ∃ order : fs.Order, order.listed loc = (fs.names loc).erase name ++ [name] := by
  refine ⟨⟨Function.update fs.names loc ((fs.names loc).erase name ++ [name]), fun l => ?_⟩, ?_⟩
  · by_cases hl : l = loc
    · subst hl
      rw [Function.update_self]
      exact (List.perm_append_singleton _ _).trans (List.perm_cons_erase hin).symm
    · rw [Function.update_of_ne hl]
  · exact Function.update_self ..

/-- Listed last, an entry has its path stay under the number it is taken for. -/
theorem exists_order_filed (hdir : fs.locate cwd blocksDir = some loc)
    (hloc : fs.isDir loc = true) {name : String} (hin : name ∈ fs.names loc) {index : Int}
    {content : List UInt8} (htaken : TakenFor fs cwd loc name index content) :
    ∃ order files path, scanBlocksDir fs order cwd blocksDir = .ok files ∧
      files[index]? = some path ∧ fs.content cwd path = some content := by
  obtain ⟨order, horder⟩ := exists_order_last hin
  obtain ⟨hindex, hopen⟩ := (takenFor_iff hdir hloc hin).mp htaken
  have hfiled : filed fs cwd loc blocksDir name =
      some (index, readUnder fs loc blocksDir name) := by
    rw [filed, isFile, hopen, hindex]
    rfl
  have hscan := scanBlocksDir_eq hdir hloc order
  rw [horder, List.filterMap_append, List.filterMap_cons_some hfiled, List.filterMap_nil,
    if_neg (by simp)] at hscan
  exact ⟨order, _, _, hscan, insertAll_concat ∅ _ _ _, hopen⟩

/-- An exact scan has everything taken for a block file lead back to its entry. -/
theorem ScanExact.leadsBack (hdir : fs.locate cwd blocksDir = some loc)
    (hloc : fs.isDir loc = true) (h : ScanExact fs cwd loc blocksDir) :
    LeadsBack fs cwd loc blocksDir where
  numbered name hin index content htaken := by
    obtain ⟨order, files, path, hscan, hpath, -⟩ := exists_order_filed hdir hloc hin htaken
    have hmaps := h order
    rw [hscan] at hmaps
    exact (hmaps.1 index).mp (by rw [hpath]; rfl)
  same name hin index content htaken entry hentry n hn hindex := by
    obtain ⟨order, files, path, hscan, hpath, hopen⟩ := exists_order_filed hdir hloc hin htaken
    have hmaps := h order
    rw [hscan] at hmaps
    rw [hindex] at hpath
    rw [← hmaps.2 entry hentry n path hn hpath, hopen]
  found entry hentry n hn := by
    have hmaps := h ⟨fs.names, fun _ => .refl _⟩
    rw [scanBlocksDir_eq hdir hloc] at hmaps
    split at hmaps
    · exact absurd (hmaps.2 entry hentry) (by simp [hn])
    · have hsome := (hmaps.1 n).mpr ⟨entry, hentry, n, hn, rfl⟩
      rw [isSome_insertAll, Std.HashMap.getElem?_empty] at hsome
      obtain ⟨path, hpath⟩ := hsome.resolve_left (by simp)
      obtain ⟨name, hname, content, -, htaken, -⟩ := (mem_filed hdir hloc).mp hpath
      exact ⟨name, hname, content, htaken⟩

/-- An exact scan files every entry of a number under it. -/
theorem ScanExact.exists_mem_filed (hdir : fs.locate cwd blocksDir = some loc)
    (hloc : fs.isDir loc = true) (h : ScanExact fs cwd loc blocksDir) {entry : String}
    (hentry : entry ∈ fs.names loc) {n : Nat} (hn : blkNumber entry = some n) :
    ∃ path, ((n : Int), path) ∈ (fs.names loc).filterMap (filed fs cwd loc blocksDir) := by
  obtain ⟨name, hname, content, htaken⟩ := (h.leadsBack hdir hloc).found entry hentry n hn
  exact BitcoinExplorer.exists_mem_filed hdir hloc ⟨fs.names, fun _ => .refl _⟩ hname htaken

/-- Where everything taken for a block file leads back to its entry, the scan is exact. -/
theorem LeadsBack.scanExact (hdir : fs.locate cwd blocksDir = some loc)
    (hloc : fs.isDir loc = true) (h : LeadsBack fs cwd loc blocksDir) :
    ScanExact fs cwd loc blocksDir := by
  intro order
  rw [scanBlocksDir_eq hdir hloc]
  split
  · rename_i hnil
    refine ⟨rfl, fun entry hentry => Option.eq_none_iff_forall_ne_some.mpr fun n hn => ?_⟩
    obtain ⟨name, hname, content, htaken⟩ := h.found entry hentry n hn
    obtain ⟨path, hmem⟩ := exists_mem_filed hdir hloc order hname htaken
    rw [hnil] at hmem
    cases hmem
  · constructor
    · intro index
      rw [isSome_insertAll, Std.HashMap.getElem?_empty]
      constructor
      · intro hsome
        obtain ⟨path, hpath⟩ := hsome.resolve_left (by simp)
        obtain ⟨name, hname, content, -, htaken, -⟩ := (mem_filed hdir hloc).mp hpath
        exact h.numbered name hname index content htaken
      · rintro ⟨entry, hentry, n, hn, rfl⟩
        obtain ⟨name, hname, content, htaken⟩ := h.found entry hentry n hn
        exact .inr (exists_mem_filed hdir hloc order hname htaken)
    · intro entry hentry n path hn hpath
      have hmem := (mem_of_insertAll hpath).resolve_right (by simp)
      obtain ⟨name, hname, content, hopen, htaken, -⟩ := (mem_filed hdir hloc).mp hmem
      rw [hopen, h.same name hname n content htaken entry hentry n hn rfl]

/-! ## Directories that lead back -/

/-- A number without a sign, in range, is what `parse::<i32>` gives. -/
theorem parseI32_of_digits {s : List Char} {n : Nat} (hn : parseDigits s = some n)
    (hlt : n < 2 ^ 31) : parseI32 s = some (n : Int) := by
  have hdigit : ∀ c ∈ s, c.isDigit = true := by
    unfold parseDigits at hn
    split at hn
    · rename_i h
      exact List.all_eq_true.mp h.2
    · cases hn
  unfold parseI32
  split
  · exact absurd (hdigit '-' List.mem_cons_self) (by decide)
  · exact absurd (hdigit '+' List.mem_cons_self) (by decide)
  · rw [hn, Option.bind_some, if_pos hlt]

theorem parseBlkIndex_of_blkNumber {name : String} (hname : Path.IsName name) {n : Nat}
    (hn : blkNumber name = some n) (hlt : n < 2 ^ 31) : parseBlkIndex name = some (n : Int) := by
  obtain ⟨text, htext, hdigits⟩ := Option.bind_eq_some_iff.mp hn
  rw [parseBlkIndex, Path.fileName_name hname]
  simp [htext, parseI32_of_digits hdigits hlt]

/-- The block files of a directory have distinct numbers in range, and only a block file's name has
a number. -/
structure Numbering (fs : Files) (loc : Location) : Prop where
  in_range : ∀ name ∈ fs.names loc, ∀ n ∈ blkNumber name, n < 2 ^ 31
  unsigned : ∀ name ∈ fs.names loc, (parseBlkIndex name).isSome → (blkNumber name).isSome
  distinct : ∀ a ∈ fs.names loc, ∀ b ∈ fs.names loc, (blkNumber a).isSome →
    blkNumber a = blkNumber b → a = b

/-- Every entry is read under a path that has the number of its name and opens as the entry does:
the target of a link is named as the link is, and stored so that it is found from the working
directory. Block files open. -/
structure KeepsNumbers (fs : Files) (cwd loc : Location) (blocksDir : PathBuf) : Prop
    extends Numbering fs loc where
  number : ∀ name ∈ fs.names loc,
    parseBlkIndex (readUnder fs loc blocksDir name) = parseBlkIndex name
  content : ∀ name ∈ fs.names loc,
    fs.content cwd (readUnder fs loc blocksDir name) = fs.content cwd (Path.join blocksDir name)
  opens : ∀ name ∈ fs.names loc, (blkNumber name).isSome →
    (fs.content cwd (Path.join blocksDir name)).isSome

/-- Where links keep the numbers, everything leads back to its entry. -/
theorem KeepsNumbers.leadsBack (h : KeepsNumbers fs cwd loc blocksDir)
    (hdir : fs.locate cwd blocksDir = some loc) (hloc : fs.isDir loc = true) :
    LeadsBack fs cwd loc blocksDir := by
  -- what is taken for a number is the block file of that number
  have htaken : ∀ name ∈ fs.names loc, ∀ index content, TakenFor fs cwd loc name index content →
      ∃ n : Nat, blkNumber name = some n ∧ index = n ∧
        fs.content cwd (Path.join blocksDir name) = some content := by
    intro name hin index content ht
    have hopen := (takenFor_iff hdir hloc hin).mp ht
    rw [h.number name hin, h.content name hin] at hopen
    obtain ⟨n, hn⟩ := Option.isSome_iff_exists.mp (h.unsigned name hin (by simp [hopen.1]))
    have hindex := parseBlkIndex_of_blkNumber (fs.isName_of_mem_names hin) hn
      (h.in_range name hin n hn)
    exact ⟨n, hn, Option.some.inj (hopen.1.symm.trans hindex), hopen.2⟩
  constructor
  · intro name hin index content ht
    obtain ⟨n, hn, hindex, -⟩ := htaken name hin index content ht
    exact ⟨name, hin, n, hn, hindex⟩
  · intro name hin index content ht entry hentry n hn hindex
    obtain ⟨m, hm, hindex', hopen⟩ := htaken name hin index content ht
    obtain rfl : m = n := by omega
    rw [← h.distinct name hin entry hentry (by simp [hm]) (hm.trans hn.symm), hopen]
  · intro entry hentry n hn
    obtain ⟨content, hcontent⟩ := Option.isSome_iff_exists.mp (h.opens entry hentry (by simp [hn]))
    refine ⟨entry, hentry, content, (takenFor_iff hdir hloc hentry).mpr ?_⟩
    rw [h.number entry hentry, h.content entry hentry]
    exact ⟨parseBlkIndex_of_blkNumber (fs.isName_of_mem_names hentry) hn
      (h.in_range entry hentry n hn), hcontent⟩

/-- Nothing in the directory is a link, and its block files are regular files. -/
structure OnlyFiles (fs : Files) (loc : Location) : Prop extends Numbering fs loc where
  no_link : ∀ name ∈ fs.names loc, (fs.node (name :: loc)).map Node.fileType ≠ some .symlink
  regular : ∀ name ∈ fs.names loc, (blkNumber name).isSome →
    (fs.node (name :: loc)).map Node.fileType = some .file

/-- Without links nothing can lose its number, wherever the process is. -/
theorem OnlyFiles.keepsNumbers (h : OnlyFiles fs loc) (hdir : fs.locate cwd blocksDir = some loc)
    (hloc : fs.isDir loc = true) : KeepsNumbers fs cwd loc blocksDir := by
  have hunder : ∀ name ∈ fs.names loc,
      readUnder fs loc blocksDir name = Path.join blocksDir name := by
    intro name hin
    have hlink := h.no_link name hin
    unfold readUnder
    split
    · rename_i hnode
      exact absurd (by rw [hnode]; rfl) hlink
    · rfl
  refine ⟨h.toNumbering, fun name hin => ?_, fun name hin => by rw [hunder name hin],
    fun name hin hsome => ?_⟩
  · rw [hunder name hin,
      parseBlkIndex_join (fs.isName_of_mem_names hin) (ne_empty_of_locate hdir)]
  · obtain ⟨node, hnode, htype⟩ := Option.map_eq_some_iff.mp (h.regular name hin hsome)
    have hne : node.fileType ≠ .symlink := by
      rw [htype]
      decide
    rw [content_join hdir hloc (fs.isName_of_mem_names hin) hnode hne]
    cases node with
    | file content => rfl
    | _ => cases htype

/-- In a directory of regular files, everything leads back to its entry. -/
theorem OnlyFiles.leadsBack (h : OnlyFiles fs loc) (hdir : fs.locate cwd blocksDir = some loc)
    (hloc : fs.isDir loc = true) : LeadsBack fs cwd loc blocksDir :=
  (h.keepsNumbers hdir hloc).leadsBack hdir hloc

/-! ## When the scan is exact -/

/-- **The scan is exact** in every listing order exactly when what is taken for a block file leads
back to the entry of its number. -/
theorem scanBlocksDir_exact_iff (hdir : fs.locate cwd blocksDir = some loc)
    (hloc : fs.isDir loc = true) :
    ScanExact fs cwd loc blocksDir ↔ LeadsBack fs cwd loc blocksDir :=
  ⟨ScanExact.leadsBack hdir hloc, LeadsBack.scanExact hdir hloc⟩

end

/-- A blocks directory of two block files, the first of which was moved to another disk, and the
mask. -/
def movedFile : Files where
  nodes := [(["blocks"], .dir), (["blk00000.dat", "blocks"], .link "/mnt/blk00000.dat"),
    (["blk00001.dat", "blocks"], .file [2]), (["xor.dat", "blocks"], .file [0]), (["mnt"], .dir),
    (["blk00000.dat", "mnt"], .file [1])]
  nodup := by decide
  named := by decide
  depth := 40

theorem scanBlocksDir_exact_movedFile :
    movedFile.locate ["blocks"] "." = some ["blocks"] ∧ movedFile.isDir ["blocks"] = true ∧
      ScanExact movedFile ["blocks"] ["blocks"] "." := by
  have hdir : movedFile.locate ["blocks"] "." = some ["blocks"] := by decide +kernel
  have hkeeps : KeepsNumbers movedFile ["blocks"] ["blocks"] "." := by
    refine ⟨?_, ?_, ?_, ?_⟩
    · constructor <;> decide +kernel
    all_goals decide +kernel
  exact ⟨hdir, rfl, (scanBlocksDir_exact_iff hdir rfl).mpr (hkeeps.leadsBack hdir rfl)⟩

/-- A block file that is a link to a file of another name. -/
def renamedLink : Files where
  nodes := [(["blocks"], .dir), (["blk00000.dat", "blocks"], .link "/mnt/blk00007.dat"),
    (["mnt"], .dir), (["blk00007.dat", "mnt"], .file [7])]
  nodup := by decide
  named := by decide
  depth := 40

/-- A block file that is a link relative to the blocks directory. -/
def relativeLink : Files where
  nodes := [(["blocks"], .dir), (["blk00000.dat", "blocks"], .link "old/blk00000.dat"),
    (["old", "blocks"], .dir), (["blk00000.dat", "old", "blocks"], .file [7])]
  nodup := by decide
  named := by decide
  depth := 40

/-- A link to a file of another name is filed under the number of that name; a relative link is not
found from another directory, so that no block file is left. Both entries open. -/
theorem scanBlocksDir_misfiles_links :
    (renamedLink.content [] "/blocks/blk00000.dat" = some [7] ∧
        ¬ ScanExact renamedLink [] ["blocks"] "/blocks") ∧
      relativeLink.content [] "/blocks/blk00000.dat" = some [7] ∧
        ¬ ScanExact relativeLink [] ["blocks"] "/blocks" := by
  refine ⟨⟨by decide +kernel, fun h => ?_⟩, by decide +kernel, fun h => ?_⟩
  · have hfiled : (renamedLink.names ["blocks"]).filterMap
        (filed renamedLink [] ["blocks"] "/blocks") = [(7, "/mnt/blk00007.dat")] := by
      decide +kernel
    obtain ⟨path, hpath⟩ := h.exists_mem_filed (by decide +kernel) rfl
      (show "blk00000.dat" ∈ _ by decide +kernel) (n := 0) (by decide +kernel)
    rw [hfiled] at hpath
    simp at hpath
  · have hfiled : (relativeLink.names ["blocks"]).filterMap
        (filed relativeLink [] ["blocks"] "/blocks") = [] := by
      decide +kernel
    obtain ⟨path, hpath⟩ := h.exists_mem_filed (by decide +kernel) rfl
      (show "blk00000.dat" ∈ _ by decide +kernel) (n := 0) (by decide +kernel)
    rw [hfiled] at hpath
    cases hpath

end BitcoinExplorer
