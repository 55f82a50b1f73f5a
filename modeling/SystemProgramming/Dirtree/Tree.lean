import SystemProgramming.Dirtree.Listing
import Mathlib.Data.UInt

/-!
# Directory trees and their pruned preorder

What a listing is meant to be, on the tree itself and without the functions of the program: the entries in
preorder, each directory's entries sorted, with the entries that match in full, the directories above them
by name, and nothing else.  The main definitions are

* `listing`, the lines, each that of `lineOf`;
* `listedInFull` and `summaryOf`, the entries that are counted and their numbers by `st_mode`;
* `Shows`, which says that a file system holds a tree.
-/

namespace SystemProgramming.Dirtree

/-- A tree: an entry, and the entries below it when it is a directory. -/
inductive Tree where
  | mk (name : Str) (stat : Stat) (children : List Tree)

namespace Tree

def name : Tree → Str
  | mk name _ _ => name

def stat : Tree → Stat
  | mk _ stat _ => stat

def children : Tree → List Tree
  | mk _ _ children => children

def isDir (t : Tree) : Prop := t.stat.st_mode = .dir

instance (t : Tree) : Decidable t.isDir := inferInstanceAs (Decidable (_ = _))

/-- What `readdir` returns for the entry, `d_type` agreeing with `lstat`. -/
def dirent (t : Tree) : Dirent := ⟨t.stat.st_mode, t.name⟩

/-- Directories first, then by name. -/
def le (t u : Tree) : Bool := if t.isDir ↔ u.isDir then decide (t.name ≤ u.name) else decide t.isDir

end Tree

/-- The trees of a directory, everything below them sorted. -/
def sortBelow : List Tree → List Tree
  | [] => []
  | .mk name stat children :: ts =>
    .mk name stat ((sortBelow children).mergeSort Tree.le) :: sortBelow ts

/-- The trees of a directory, with the entries of each directory sorted. -/
def sorted (ts : List Tree) : List Tree := (sortBelow ts).mergeSort Tree.le

/-- The trees of a directory in preorder, each with its depth. -/
def preorder (depth : ℕ) : List Tree → List (ℕ × Tree)
  | [] => []
  | .mk name stat children :: ts =>
    (depth, .mk name stat children) :: (preorder (depth + 1) children ++ preorder depth ts)

/-- The path of an entry. -/
def childPath (parent name : Str) : Str :=
  if parent.getLast? = some slash then parent ++ name else parent ++ slash :: name

/-- **The file system holds a tree**: every directory can be read, every entry has an `lstat`, and no
path is too long. -/
inductive Shows (env : Env) : Str → List Tree → Prop where
  | dir {path : Str} {ts : List Tree} {entries : List Dirent}
      (nonempty : path ≠ [])
      (readable : env.opendir path = .ok entries)
      (entries_eq : (entries.filter fun e => !ignored e) = ts.map Tree.dirent)
      (short : ∀ t ∈ ts, (childPath path t.name).length < MAX_PATH_LEN)
      (statable : ∀ t ∈ ts, env.lstat (childPath path t.name) = .ok t.stat)
      (leaf : ∀ t ∈ ts, ¬ t.isDir → t.children = [])
      (below : ∀ t ∈ ts, t.isDir → Shows env (childPath path t.name) t.children) :
      Shows env path ts

/-! ### The columns of a line -/

/-- The letter of a type.  Devices count as regular files. -/
def FileType.letter : FileType → Char
  | .dir => 'd'
  | .lnk => 'l'
  | .fifo => 'f'
  | .sock => 's'
  | .reg | .chr | .blk | .unknown => ' '

/-- The name in its column of 54: two blanks for each level, and three dots where it is cut. -/
def nameColumn (depth : ℕ) (name : Str) : Str :=
  let indented := List.replicate (2 * depth) space ++ name
  if indented.length ≤ 54 then indented else indented.take 51 ++ [dot, dot, dot]

/-- The line of an entry that is listed in full; `?` stands for a user or a group without a name. -/
def fullLine (env : Env) (depth : ℕ) (name : Str) (st : Stat) : Line :=
  .entry (nameColumn depth name) ((env.getpwuid st.st_uid).getD [questionMark])
    ((env.getgrgid st.st_gid).getD [questionMark]) st.st_size st.st_blocks st.st_mode.letter

/-- The name passes the filter, if there is one. -/
def Options.Selects (opt : Options) (name : Str) : Prop := ∀ p ∈ opt.filter, p name = true

instance (opt : Options) (name : Str) : Decidable (opt.Selects name) :=
  inferInstanceAs (Decidable (∀ p ∈ opt.filter, p name = true))

/-! ### The lines -/

variable (env : Env) (opt : Options)

/-- Some entry at depth at most `max_depth` matches; the trees are at depth `depth`. -/
def hasMatch (depth : ℕ) (ts : List Tree) : Prop :=
  ∃ x ∈ preorder depth ts, x.1 ≤ opt.max_depth ∧ opt.Selects x.2.name

instance (depth : ℕ) (ts : List Tree) : Decidable (hasMatch opt depth ts) :=
  inferInstanceAs (Decidable (∃ x ∈ _, _))

/-- What is printed for an entry. -/
def lineOf (x : ℕ × Tree) : Option Line :=
  if x.1 ≤ opt.max_depth then
    if opt.Selects x.2.name then some (fullLine env x.1 x.2.name x.2.stat)
    else if x.2.isDir ∧ hasMatch opt (x.1 + 1) x.2.children then some (.name (nameColumn x.1 x.2.name))
    else none
  else none

/-- The lines of the listing. -/
def listing (depth : ℕ) (ts : List Tree) : List Line :=
  (preorder depth ts).filterMap (lineOf env opt)

/-- The counts and totals of some entries, as the types of `struct summary` hold them.  A file is what is
none of the others. -/
def summaryOf (sts : List Stat) : Summary where
  dirs := UInt32.ofNat (sts.countP fun st => st.st_mode = .dir)
  files := UInt32.ofNat (sts.countP fun st => st.st_mode ∉ [.dir, .lnk, .fifo, .sock])
  links := UInt32.ofNat (sts.countP fun st => st.st_mode = .lnk)
  fifos := UInt32.ofNat (sts.countP fun st => st.st_mode = .fifo)
  socks := UInt32.ofNat (sts.countP fun st => st.st_mode = .sock)
  size := (sts.map Stat.st_size).sum
  blocks := (sts.map Stat.st_blocks).sum

end SystemProgramming.Dirtree
