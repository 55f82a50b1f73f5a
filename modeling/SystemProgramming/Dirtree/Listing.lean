import SystemProgramming.Lib.Exec
import SystemProgramming.Lib.CString

/-!
# `process_dir` and `subtree_has_match`

The recursive listing of `dirtree` over a file system that answers `opendir` and `lstat` by path and
does not change while it is read.  What is printed and the summary that `stats` points at are the
state.  `realloc` is taken to succeed: its failure ends the program.
-/

namespace SystemProgramming.Dirtree

open Exec

/-- The kinds of file that `st_mode` and `d_type` tell apart (`unknown` is `DT_UNKNOWN`). -/
inductive FileType where
  | dir | lnk | fifo | sock | reg | chr | blk | unknown
  deriving DecidableEq

/-- The error numbers the listing looks at. -/
inductive Errno where
  | EACCES | ENOENT | other
  deriving DecidableEq

/-- `struct dirent` -/
structure Dirent where
  d_type : FileType
  d_name : Str
  deriving DecidableEq

/-- `struct stat`; sizes as the `unsigned long long` they are printed and added up as. -/
structure Stat where
  st_mode : FileType
  st_uid : ℕ
  st_gid : ℕ
  st_size : UInt64
  st_blocks : UInt64
  deriving DecidableEq

/-- The file system and the user data base. -/
structure Env where
  opendir : Str → Except Errno (List Dirent)
  lstat : Str → Except Errno Stat
  getpwuid : ℕ → Option Str
  getgrgid : ℕ → Option Str

/-- `struct summary` -/
structure Summary where
  dirs : UInt32
  files : UInt32
  links : UInt32
  fifos : UInt32
  socks : UInt32
  size : UInt64
  blocks : UInt64
  deriving DecidableEq

/-- What is printed, with the arguments of the format. -/
inductive Line where
  | entry (namecol user group : Str) (size blocks : UInt64) (typech : Char)
  | name (namecol : Str)
  | error (indent : ℕ) (message : String)
  | perror (message : String)
  deriving DecidableEq

/-- The lines printed so far and `*stats`. -/
structure Out where
  lines : List Line
  stats : Summary
  deriving DecidableEq

/-- The options.  `filter` is `match(·, pattern)` when `F_Filter` is set. -/
structure Options where
  max_depth : ℕ
  filter : Option (Str → Bool)

def MAX_PATH_LEN : ℕ := 1024

/-- `'/'` -/
def slash : CChar := ⟨47, by decide⟩

/-- `' '` -/
def space : CChar := ⟨32, by decide⟩

/-- `'.'` -/
def dot : CChar := ⟨46, by decide⟩

/-- `'?'` -/
def questionMark : CChar := ⟨63, by decide⟩

/-- `dirent_compare` -/
def direntCompare (e1 e2 : Dirent) : ℤ :=
  if e1.d_type ≠ e2.d_type then
    if e1.d_type = .dir then -1
    else if e2.d_type = .dir then 1
    else strcmp e1.d_name e2.d_name
  else strcmp e1.d_name e2.d_name

/-- What `get_next` passes over. -/
def ignored (e : Dirent) : Bool := strcmp e.d_name [dot] = 0 || strcmp e.d_name [dot, dot] = 0

/-- The entries that `get_next` returns one after the other, sorted by `qsort`. -/
def sortedEntries (entries : List Dirent) : List Dirent :=
  (entries.filter fun e => !ignored e).mergeSort fun e1 e2 => direntCompare e1 e2 ≤ 0

/-- `get_type_char` -/
def getTypeChar (st : Stat) : Char :=
  match st.st_mode with
  | .dir => 'd'
  | .lnk => 'l'
  | .fifo => 'f'
  | .sock => 's'
  | _ => ' '

/-- `summary_add_entry` -/
def summaryAddEntry (stats : Summary) (st : Stat) (type_char : Char) : Summary :=
  let stats :=
    if type_char = 'd' then { stats with dirs := stats.dirs + 1 }
    else if type_char = ' ' then { stats with files := stats.files + 1 }
    else if type_char = 'l' then { stats with links := stats.links + 1 }
    else if type_char = 'f' then { stats with fifos := stats.fifos + 1 }
    else if type_char = 's' then { stats with socks := stats.socks + 1 }
    else stats
  { stats with size := stats.size + st.st_size, blocks := stats.blocks + st.st_blocks }

/-- `make_child_path`: the path, or `none` for -1.  An empty parent would be read at index -1. -/
def makeChildPath (parent name : Str) : Exec Out (Option Str) := fun s =>
  match parent.getLast? with
  | none => .abort
  | some last =>
    let path := if last = slash then parent ++ name else parent ++ slash :: name
    if path.length ≥ MAX_PATH_LEN then .ok none s else .ok (some path) s

/-- `format_truncated_left` -/
def formatTruncatedLeft (dstsz : ℕ) (src : Str) (width : ℕ) : Str :=
  if src.length ≤ width then snprintf dstsz src
  else if width > 3 then snprintf dstsz (src.take (width - 3) ++ [dot, dot, dot])
  else snprintf dstsz (src.take width)

/-- `build_display_name` -/
def buildDisplayName (dstsz : ℕ) (name : Str) (depth : ℕ) : Str :=
  let temp := snprintf MAX_PATH_LEN (List.replicate (depth * 2) space ++ name)
  formatTruncatedLeft dstsz temp 54

/-- `entry_matches_filter` -/
def entryMatchesFilter (opt : Options) (name : Str) : Bool :=
  match opt.filter with
  | none => true
  | some matches_pattern => matches_pattern name

def printLine (l : Line) : Exec Out Unit := Exec.modify fun s => { s with lines := s.lines ++ [l] }

/-- `print_permission_denied_line` -/
def printPermissionDeniedLine (depth : ℕ) : Exec Out Unit :=
  printLine (.error ((depth - 1) * 2) "Permission denied")

/-- `print_missing_path_line` -/
def printMissingPathLine : Exec Out Unit := printLine (.error 0 "No such file or directory")

variable (env : Env) (opt : Options)

/-- `lookup_user` -/
def lookupUser (uid : ℕ) : Str := (env.getpwuid uid).getD [questionMark]

/-- `lookup_group` -/
def lookupGroup (gid : ℕ) : Str := (env.getgrgid gid).getD [questionMark]

/-- The line that `print_entry_line` prints. -/
def entryLine (display_name : Str) (st : Stat) : Line :=
  .entry display_name (lookupUser env st.st_uid) (lookupGroup env st.st_gid) st.st_size st.st_blocks
    (getTypeChar st)

/-- `summary_add_entry(stats, &st, get_type_char(&st))` -/
def countEntry (st : Stat) : Exec Out Unit :=
  Exec.modify fun s => { s with stats := summaryAddEntry s.stats st (getTypeChar st) }

/-- The loop of `subtree_has_match`; `descend` is the recursive call. -/
def searchEntries (descend : Str → Exec Out Bool) (dn : Str) (depth : ℕ) :
    List Dirent → Exec Out Bool
  | [] => pure false
  | e :: es => do
    match ← makeChildPath dn e.d_name with
    | none => searchEntries descend dn depth es
    | some full_path =>
      match env.lstat full_path with
      | .error _ => searchEntries descend dn depth es
      | .ok st =>
        if entryMatchesFilter opt e.d_name then return true
        else if st.st_mode = .dir ∧ depth < opt.max_depth then
          if ← descend full_path then return true
          searchEntries descend dn depth es
        else searchEntries descend dn depth es

/-- `subtree_has_match(dn, depth, flags)` -/
def subtreeHasMatch : ℕ → Str → ℕ → Exec Out Bool
  | 0, _, _ => timeout
  | fuel + 1, dn, depth =>
    match env.opendir dn with
    | .error _ => pure false
    | .ok entries =>
      searchEntries env opt (fun path => subtreeHasMatch fuel path (depth + 1)) dn depth
        (sortedEntries entries)

/-- The loop of `process_dir` without a filter; `descend` is the recursive call. -/
def listEntries (descend : Str → Exec Out ℤ) (dn : Str) (depth : ℕ) : List Dirent → Exec Out ℤ
  | [] => pure 1
  | e :: es => do
    match ← makeChildPath dn e.d_name with
    | none => return -1
    | some full_path =>
      match env.lstat full_path with
      | .error _ =>
        printLine (.perror "lstat")
        listEntries descend dn depth es
      | .ok st =>
        countEntry st
        printLine (entryLine env (buildDisplayName 256 e.d_name depth) st)
        when (st.st_mode = .dir ∧ depth < opt.max_depth) (do let _ ← descend full_path)
        listEntries descend dn depth es

/-- The loop of `process_dir` with a filter. -/
def filterEntries (has_match : Str → Exec Out Bool) (descend : Str → Exec Out ℤ) (dn : Str)
    (depth : ℕ) : ℤ → List Dirent → Exec Out ℤ
  | any_match, [] => pure any_match
  | any_match, e :: es => do
    match ← makeChildPath dn e.d_name with
    | none => return -1
    | some full_path =>
      match env.lstat full_path with
      | .error errno =>
        when (errno = .EACCES) (printPermissionDeniedLine depth)
        filterEntries has_match descend dn depth any_match es
      | .ok st =>
        let self_matches := entryMatchesFilter opt e.d_name
        if st.st_mode = .dir then
          let child_has_match ←
            if self_matches = false ∧ depth < opt.max_depth then has_match full_path else pure false
          let shown := self_matches || child_has_match
          when (shown = true) do
            let namecol := buildDisplayName 256 e.d_name depth
            if self_matches then
              printLine (entryLine env namecol st)
              countEntry st
            else printLine (.name namecol)
          when (depth < opt.max_depth) (do let _ ← descend full_path)
          filterEntries has_match descend dn depth (if shown then 1 else any_match) es
        else do
          when (self_matches = true) do
            printLine (entryLine env (buildDisplayName 256 e.d_name depth) st)
            countEntry st
          filterEntries has_match descend dn depth (if self_matches then 1 else any_match) es

/-- `process_dir(dn, depth, pstr, stats, flags)` -/
def processDir : ℕ → Str → ℕ → Exec Out ℤ
  | 0, _, _ => timeout
  | fuel + 1, dn, depth =>
    match env.opendir dn with
    | .error errno => do
      when (errno = .EACCES) (printPermissionDeniedLine depth)
      when (errno = .ENOENT) printMissingPathLine
      return 0
    | .ok entries =>
      let descend := fun path => processDir fuel path (depth + 1)
      match opt.filter with
      | none => listEntries env opt descend dn depth (sortedEntries entries)
      | some _ =>
        filterEntries env opt (fun path => subtreeHasMatch env opt fuel path (depth + 1)) descend dn
          depth 0 (sortedEntries entries)

end SystemProgramming.Dirtree
