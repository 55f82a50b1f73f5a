import SystemProgramming.Dirtree.ListingSpec

/-!
# The listing on a file system with faults

Directories that cannot be opened, entries whose `lstat` fails and paths that are too long.  `rows` is what
`process_dir` is to print, with or without a filter, and `Meets` how an entry is reached.
`subtree_has_match` passes over a path that is too long (`searched`); `process_dir` leaves the directory at
the first one (`walked`).  So a directory may be listed for the sake of a match that is not listed.  The main
results are

* `full_mem_rows` and `name_mem_rows`, the entries that are listed;
* `decides_subtreeHasMatch_found`, what the look-ahead finds;
* `prints_processDir`, which says that the rows are printed;
* `filtered_parents_have_matches`, when every parent that is listed by name has a match below it.
-/

namespace SystemProgramming.Dirtree

open Exec

/-- An entry that is reached at a path. -/
structure Visit where
  path : Str
  name : Str
  depth : ℕ
  stat : Stat

/-- A line that is printed: an entry in full, the name of a directory above a match, or a message. -/
inductive Row where
  | full (v : Visit)
  | name (v : Visit)
  | message (l : Line)

/-- The entries that `subtree_has_match` looks at. -/
def searched (dn : Str) (es : List Dirent) : List Dirent := es.filter (fits dn)

/-- The entries that `process_dir` looks at. -/
def walked (dn : Str) (es : List Dirent) : List Dirent := es.takeWhile (fits dn)

variable (env : Env) (opt : Options) (pick : Str → List Dirent → List Dirent)

/-- `v` is an entry of the directory `dn`. -/
def EntryOf (dn : Str) (depth : ℕ) (v : Visit) : Prop :=
  ∃ entries, env.opendir dn = .ok entries ∧ ∃ e ∈ pick dn (sortedEntries entries),
    ∃ st, env.lstat (childPath dn e.d_name) = .ok st ∧ v = ⟨childPath dn e.d_name, e.d_name, depth, st⟩

/-- `x` is reached below the directory `dn`, whose entries are at depth `depth`. -/
inductive Meets : Str → ℕ → Visit → Prop where
  | entry {dn : Str} {depth : ℕ} {x : Visit} (hx : EntryOf env pick dn depth x) : Meets dn depth x
  | deeper {dn : Str} {depth : ℕ} {v x : Visit} (hv : EntryOf env pick dn depth v)
      (hdir : v.stat.st_mode = .dir) (hdepth : depth < opt.max_depth)
      (hx : Meets v.path (depth + 1) x) : Meets dn depth x

/-- The entry matches the pattern. -/
def Matches (v : Visit) : Prop := opt.Selects v.name

instance (v : Visit) : Decidable (Matches opt v) := inferInstanceAs (Decidable (opt.Selects _))

/-- A match is found below the directory `dn`. -/
def FoundBelow (dn : Str) (depth : ℕ) : Prop := ∃ x, Meets env opt searched dn depth x ∧ Matches opt x

def Row.line : Row → Line
  | full v => fullLine env v.depth v.name v.stat
  | name v => .name (nameColumn v.depth v.name)
  | message l => l

open Classical in
/-- The line of an entry. -/
noncomputable def headRows (v : Visit) : List Row :=
  if Matches opt v then [.full v]
  else if v.stat.st_mode = .dir ∧ v.depth < opt.max_depth ∧ FoundBelow env opt v.path (v.depth + 1) then
    [.name v]
  else []

/-- What is printed for an entry whose `lstat` fails: with a filter only that there is no permission. -/
def faultRows (errno : Errno) (depth : ℕ) : List Row :=
  if opt.filter.isNone then [.message (.perror "lstat")]
  else if errno = .EACCES then [.message (.error ((depth - 1) * 2) "Permission denied")]
  else []

/-- What is printed for an entry, with what `below` prints for the directory it is. -/
noncomputable def entryRows (below : Str → List Row) (dn : Str) (depth : ℕ) (e : Dirent) : List Row :=
  match env.lstat (childPath dn e.d_name) with
  | .error errno => faultRows opt errno depth
  | .ok st =>
    headRows env opt ⟨childPath dn e.d_name, e.d_name, depth, st⟩
      ++ if st.st_mode = .dir ∧ depth < opt.max_depth then below (childPath dn e.d_name) else []

/-- What is printed for a directory that cannot be opened. -/
def errorRows (errno : Errno) (depth : ℕ) : List Row :=
  (if errno = .EACCES then [.message (.error ((depth - 1) * 2) "Permission denied")] else [])
    ++ if errno = .ENOENT then [.message (.error 0 "No such file or directory")] else []

/-- What is printed for a directory. -/
noncomputable def dirRows (below : Str → List Row) (dn : Str) (depth : ℕ) : List Row :=
  match env.opendir dn with
  | .error errno => errorRows errno depth
  | .ok entries => (walked dn (sortedEntries entries)).flatMap (entryRows env opt below dn depth)

/-- What is printed for a directory with `levels` levels below it. -/
noncomputable def levelRows : ℕ → Str → ℕ → List Row
  | 0, dn, depth => dirRows env opt (fun _ => []) dn depth
  | levels + 1, dn, depth => dirRows env opt (fun path => levelRows levels path (depth + 1)) dn depth

/-- What `process_dir` prints for a directory. -/
noncomputable def rows (dn : Str) (depth : ℕ) : List Row :=
  levelRows env opt (opt.max_depth - depth) dn depth

variable {env opt pick} {dn path : Str} {depth : ℕ} {v x : Visit} {o : Out}

theorem matches_iff : Matches opt v ↔ entryMatchesFilter opt v.name = true := selects_iff

/-- Without a filter every entry matches. -/
theorem matches_of_unfiltered (h : opt.filter = none) (v : Visit) : Matches opt v := by
  intro p hp
  rw [h] at hp
  cases hp

theorem Row.line_full (v : Visit) : (Row.full v).line env
    = entryLine env (buildDisplayName 256 v.name v.depth) v.stat := (entryLine_eq env _ _ _).symm

theorem Row.line_name (v : Visit) :
    (Row.name v).line env = .name (buildDisplayName 256 v.name v.depth) := by
  rw [buildDisplayName_eq]
  rfl

theorem headRows_of_matches (hm : Matches opt v) : headRows env opt v = [.full v] := if_pos hm

theorem headRows_of_found (hm : ¬ Matches opt v) (hdir : v.stat.st_mode = .dir)
    (hfound : v.depth < opt.max_depth ∧ FoundBelow env opt v.path (v.depth + 1)) :
    headRows env opt v = [.name v] := by
  unfold headRows
  rw [if_neg hm, if_pos ⟨hdir, hfound⟩]

theorem headRows_of_hidden (hm : ¬ Matches opt v) (hno : ¬ (v.stat.st_mode = .dir ∧
    v.depth < opt.max_depth ∧ FoundBelow env opt v.path (v.depth + 1))) : headRows env opt v = [] := by
  unfold headRows
  rw [if_neg hm, if_neg hno]

theorem faultRows_of_unfiltered (h : opt.filter = none) (errno : Errno) (depth : ℕ) :
    faultRows opt errno depth = [.message (.perror "lstat")] := by
  unfold faultRows
  rw [h]
  rfl

theorem faultRows_of_filter {p : Str → Bool} (h : opt.filter = some p) (errno : Errno) (depth : ℕ) :
    faultRows opt errno depth
      = if errno = .EACCES then [.message (.error ((depth - 1) * 2) "Permission denied")] else [] := by
  unfold faultRows
  rw [h]
  rfl

theorem entryRows_of_error (below : Str → List Row) {e : Dirent} {errno : Errno}
    (h : env.lstat (childPath dn e.d_name) = .error errno) :
    entryRows env opt below dn depth e = faultRows opt errno depth := by
  unfold entryRows
  rw [h]

theorem entryRows_of_ok (below : Str → List Row) {e : Dirent} {st : Stat}
    (h : env.lstat (childPath dn e.d_name) = .ok st) : entryRows env opt below dn depth e
      = headRows env opt ⟨childPath dn e.d_name, e.d_name, depth, st⟩
        ++ if st.st_mode = .dir ∧ depth < opt.max_depth then below (childPath dn e.d_name) else [] := by
  unfold entryRows
  rw [h]

theorem rows_eq (dn : Str) (depth : ℕ) :
    rows env opt dn depth = dirRows env opt (fun path => rows env opt path (depth + 1)) dn depth := by
  unfold rows
  by_cases hlt : depth < opt.max_depth
  · obtain ⟨n, hn⟩ : ∃ n, opt.max_depth - depth = n + 1 := ⟨opt.max_depth - depth - 1, by omega⟩
    have hbelow : opt.max_depth - (depth + 1) = n := by omega
    rw [hn, hbelow]
    rfl
  · have hentry (e : Dirent) (below below' : Str → List Row) :
        entryRows env opt below dn depth e = entryRows env opt below' dn depth e := by
      unfold entryRows
      cases env.lstat (childPath dn e.d_name) with
      | error errno => rfl
      | ok st =>
        have hno : ¬ (st.st_mode = .dir ∧ depth < opt.max_depth) := fun h => hlt h.2
        simp only [if_neg hno]
    have hzero : opt.max_depth - depth = 0 := by omega
    rw [hzero]
    show dirRows env opt _ dn depth = _
    unfold dirRows
    cases env.opendir dn with
    | error errno => rfl
    | ok entries =>
      apply List.flatMap_congr
      exact fun e _ => hentry e _ _

theorem meets_iff : Meets env opt pick dn depth x ↔ ∃ v, EntryOf env pick dn depth v ∧
    (x = v ∨ (v.stat.st_mode = .dir ∧ depth < opt.max_depth ∧ Meets env opt pick v.path (depth + 1) x)) := by
  constructor
  · intro h
    cases h with
    | entry hx => exact ⟨x, hx, Or.inl rfl⟩
    | deeper hv hdir hdepth hx => exact ⟨_, hv, Or.inr ⟨hdir, hdepth, hx⟩⟩
  · rintro ⟨v, hv, rfl | ⟨hdir, hdepth, hx⟩⟩
    · exact .entry hv
    · exact .deeper hv hdir hdepth hx

/-! ### The rows, and what is met -/

theorem full_mem_headRows : Row.full x ∈ headRows env opt v ↔ x = v ∧ Matches opt v := by
  unfold headRows
  split_ifs with hm hd
  · simp [hm]
  · simp [hm]
  · simp [hm]

theorem name_mem_headRows : Row.name x ∈ headRows env opt v ↔ x = v ∧ ¬ Matches opt v ∧
    v.stat.st_mode = .dir ∧ v.depth < opt.max_depth ∧ FoundBelow env opt v.path (v.depth + 1) := by
  unfold headRows
  split_ifs with hm hd
  · simp [hm]
  · simp [hm, hd]
  · simp [hd]

/-- A row that is no message is that of an entry of the directory, or of one below an entry. -/
theorem mem_rows {r : Row} (hr : ∀ l, r ≠ .message l) : r ∈ rows env opt dn depth ↔
    ∃ v, EntryOf env walked dn depth v ∧ (r ∈ headRows env opt v ∨
      (v.stat.st_mode = .dir ∧ depth < opt.max_depth ∧ r ∈ rows env opt v.path (depth + 1))) := by
  have hmessage (c : Prop) [Decidable c] (l : Line) {rs : List Row} (hrs : r ∉ rs) :
      r ∉ if c then [Row.message l] else rs := by
    split_ifs
    · exact fun h => hr l (List.mem_singleton.mp h)
    · exact hrs
  rw [rows_eq]
  unfold dirRows EntryOf
  cases env.opendir dn with
  | error errno =>
    apply iff_of_false
    · intro h
      rcases List.mem_append.mp h with h | h
      · exact hmessage _ _ List.not_mem_nil h
      · exact hmessage _ _ List.not_mem_nil h
    · rintro ⟨v, ⟨entries, h, -⟩, -⟩
      cases h
  | ok entries =>
    have hentry (e : Dirent) : r ∈ entryRows env opt (fun path => rows env opt path (depth + 1)) dn depth e ↔
        ∃ st, env.lstat (childPath dn e.d_name) = .ok st ∧
          (r ∈ headRows env opt ⟨childPath dn e.d_name, e.d_name, depth, st⟩ ∨
            (st.st_mode = .dir ∧ depth < opt.max_depth ∧
              r ∈ rows env opt (childPath dn e.d_name) (depth + 1))) := by
      unfold entryRows
      cases env.lstat (childPath dn e.d_name) with
      | error errno =>
        apply iff_of_false
        · exact hmessage _ _ (hmessage _ _ List.not_mem_nil)
        · rintro ⟨st, h, -⟩
          cases h
      | ok st =>
        simp only [List.mem_append, Except.ok.injEq, exists_eq_left']
        apply or_congr_right
        split_ifs with hd
        · exact ⟨fun h => ⟨hd.1, hd.2, h⟩, fun h => h.2.2⟩
        · exact iff_of_false List.not_mem_nil fun h => hd ⟨h.1, h.2.1⟩
    simp only [List.mem_flatMap, hentry, Except.ok.injEq, exists_eq_left']
    constructor
    · rintro ⟨e, he, st, hst, h⟩
      exact ⟨_, ⟨e, he, st, hst, rfl⟩, h⟩
    · rintro ⟨v, ⟨e, he, st, hst, rfl⟩, h⟩
      exact ⟨e, he, st, hst, h⟩

/-- The rows of an entry, and of the directory that it is, stand together. -/
theorem entry_block (opt : Options) (h : EntryOf env walked dn depth v) :
    List.IsInfix (headRows env opt v ++ if v.stat.st_mode = .dir ∧ depth < opt.max_depth then
      rows env opt v.path (depth + 1) else []) (rows env opt dn depth) := by
  obtain ⟨entries, hopen, e, he, st, hst, rfl⟩ := h
  have hrows : rows env opt dn depth = (walked dn (sortedEntries entries)).flatMap
      (entryRows env opt (fun path => rows env opt path (depth + 1)) dn depth) := by
    rw [rows_eq]
    unfold dirRows
    rw [hopen]
  rw [hrows, ← entryRows_of_ok (fun path => rows env opt path (depth + 1)) hst]
  exact List.infix_of_mem_flatten (List.mem_map_of_mem he)

/-- **The rows are those of the entries that the walk meets.** -/
theorem mem_rows_iff_meets {r : Row} (hr : ∀ l, r ≠ .message l) : r ∈ rows env opt dn depth ↔
    ∃ v, Meets env opt walked dn depth v ∧ r ∈ headRows env opt v := by
  constructor
  · -- the induction is on the levels that are left
    induction hn : opt.max_depth - depth using Nat.strongRecOn generalizing dn depth with
    | _ n ih =>
      intro h
      obtain ⟨v, hv, h | ⟨hdir, hdepth, h⟩⟩ := (mem_rows hr).mp h
      · exact ⟨v, .entry hv, h⟩
      · obtain ⟨x, hx, hrow⟩ := ih (opt.max_depth - (depth + 1)) (by omega) rfl h
        exact ⟨x, .deeper hv hdir hdepth hx, hrow⟩
  · rintro ⟨x, hx, hrow⟩
    induction hx with
    | entry hx => exact (mem_rows hr).mpr ⟨_, hx, Or.inl hrow⟩
    | deeper hv hdir hdepth hx ih => exact (mem_rows hr).mpr ⟨_, hv, Or.inr ⟨hdir, hdepth, ih hrow⟩⟩

theorem full_mem_rows : Row.full x ∈ rows env opt dn depth ↔
    Meets env opt walked dn depth x ∧ Matches opt x := by
  rw [mem_rows_iff_meets fun l h => by cases h]
  simp only [full_mem_headRows]
  constructor
  · rintro ⟨v, hv, rfl, hm⟩
    exact ⟨hv, hm⟩
  · rintro ⟨hx, hm⟩
    exact ⟨x, hx, rfl, hm⟩

theorem name_mem_rows : Row.name v ∈ rows env opt dn depth ↔
    Meets env opt walked dn depth v ∧ ¬ Matches opt v ∧ v.stat.st_mode = .dir ∧
      v.depth < opt.max_depth ∧ FoundBelow env opt v.path (v.depth + 1) := by
  rw [mem_rows_iff_meets fun l h => by cases h]
  simp only [name_mem_headRows]
  constructor
  · rintro ⟨x, hx, rfl, h⟩
    exact ⟨hx, h⟩
  · rintro ⟨hv, h⟩
    exact ⟨v, hv, rfl, h⟩

/-- What is printed for the entries below a directory that is listed by name follows its name. -/
theorem name_block (h : Row.name v ∈ rows env opt dn depth) :
    List.IsInfix (Row.name v :: rows env opt v.path (v.depth + 1)) (rows env opt dn depth) := by
  obtain ⟨hmeets, hm, hdir, hdepth, hfound⟩ := name_mem_rows.mp h
  clear h
  induction hmeets with
  | entry hv =>
    have hblock := entry_block opt hv
    rw [headRows_of_found hm hdir ⟨hdepth, hfound⟩] at hblock
    obtain ⟨entries, -, e, -, st, -, rfl⟩ := hv
    rwa [if_pos ⟨hdir, hdepth⟩] at hblock
  | deeper hv hdir' hdepth' hx ih =>
    have hblock := entry_block opt hv
    rw [if_pos ⟨hdir', hdepth'⟩] at hblock
    exact ((ih hm hdir hdepth hfound).trans (List.suffix_append _ _).isInfix).trans hblock

/-! ### The look-ahead -/

theorem childPath_ne_nil (h : dn ≠ []) (name : Str) : childPath dn name ≠ [] := by
  unfold childPath
  split_ifs
  · exact fun hnil => h (List.append_eq_nil_iff.mp hnil).1
  · exact fun hnil => h (List.append_eq_nil_iff.mp hnil).1

/-- The loop of the look-ahead. -/
theorem decides_searchEntries_fits {descend : Str → Exec Out Bool} {es : List Dirent} {P : Str → Prop}
    (h : dn ≠ []) (hdescend : depth < opt.max_depth → ∀ path, path ≠ [] → Decides (descend path) o (P path)) :
    Decides (searchEntries env opt descend dn depth es) o
      (∃ e ∈ searched dn es, ∃ st, env.lstat (childPath dn e.d_name) = .ok st ∧
        (entryMatchesFilter opt e.d_name = true ∨
          (st.st_mode = .dir ∧ depth < opt.max_depth ∧ P (childPath dn e.d_name)))) := by
  induction es with
  | nil =>
    apply decides_false
    rintro ⟨e, he, -⟩
    cases he
  | cons e es ih =>
    unfold searchEntries
    apply (gives_makeChildPath_fits h e o).decides
    by_cases hfits : fits dn e = true
    · have hsearched : searched dn (e :: es) = e :: searched dn es := List.filter_cons_of_pos hfits
      rw [if_pos hfits, hsearched]
      simp only [List.exists_mem_cons_iff]
      cases env.lstat (childPath dn e.d_name) with
      | error errno =>
        apply ih.congr
        simp
      | ok st =>
        simp only [Except.ok.injEq, exists_eq_left']
        show Decides (if entryMatchesFilter opt e.d_name = true then _ else _) o _
        by_cases hm : entryMatchesFilter opt e.d_name = true
        · rw [if_pos hm]
          exact decides_true (Or.inl (Or.inl hm))
        · rw [if_neg hm]
          by_cases hd : st.st_mode = .dir ∧ depth < opt.max_depth
          · rw [if_pos hd]
            apply ((hdescend hd.2 _ (childPath_ne_nil h e.d_name)).or ih).congr
            apply or_congr_left
            exact ⟨fun hP => Or.inr ⟨hd.1, hd.2, hP⟩, fun hP => (hP.resolve_left hm).2.2⟩
          · rw [if_neg hd]
            apply ih.congr
            refine (or_iff_right ?_).symm
            exact fun hP => hd ⟨(hP.resolve_left hm).1, (hP.resolve_left hm).2.1⟩
    · have hsearched : searched dn (e :: es) = searched dn es := List.filter_cons_of_neg hfits
      rw [if_neg hfits, hsearched]
      exact ih

theorem foundBelow_iff {entries : List Dirent} (h : env.opendir dn = .ok entries) :
    FoundBelow env opt dn depth ↔ ∃ e ∈ searched dn (sortedEntries entries), ∃ st,
      env.lstat (childPath dn e.d_name) = .ok st ∧ (entryMatchesFilter opt e.d_name = true ∨
        (st.st_mode = .dir ∧ depth < opt.max_depth ∧
          FoundBelow env opt (childPath dn e.d_name) (depth + 1))) := by
  simp only [← selects_iff]
  constructor
  · rintro ⟨x, hx, hm⟩
    obtain ⟨v, ⟨entries', hopen, e, he, st, hst, rfl⟩, hv⟩ := meets_iff.mp hx
    rw [h] at hopen
    cases hopen
    refine ⟨e, he, st, hst, ?_⟩
    rcases hv with rfl | ⟨hdir, hdepth, hv⟩
    · exact Or.inl hm
    · exact Or.inr ⟨hdir, hdepth, x, hv, hm⟩
  · rintro ⟨e, he, st, hst, hm | ⟨hdir, hdepth, x, hx, hm⟩⟩
    · exact ⟨_, .entry ⟨entries, h, e, he, st, hst, rfl⟩, hm⟩
    · exact ⟨x, .deeper ⟨entries, h, e, he, st, hst, rfl⟩ hdir hdepth hx, hm⟩

/-- **The look-ahead passes over the faults**: `subtree_has_match` says whether a match is found. -/
theorem decides_subtreeHasMatch_found {fuel : ℕ} (h : dn ≠ []) (hdepth : depth ≤ opt.max_depth)
    (hfuel : opt.max_depth < fuel + depth) :
    Decides (subtreeHasMatch env opt fuel dn depth) o (FoundBelow env opt dn depth) := by
  induction fuel generalizing dn depth o with
  | zero => omega
  | succ fuel ih =>
    unfold subtreeHasMatch
    cases hopen : env.opendir dn with
    | error errno =>
      apply decides_false
      rintro ⟨x, hx, -⟩
      obtain ⟨v, ⟨entries, hok, -⟩, -⟩ := meets_iff.mp hx
      rw [hopen] at hok
      cases hok
    | ok entries =>
      apply Decides.congr _ (foundBelow_iff hopen).symm
      apply decides_searchEntries_fits (P := fun path => FoundBelow env opt path (depth + 1)) h
      exact fun hlt path hpath => ih hpath hlt (by omega)

/-! ### What the loop prints -/

/-- `m` returns, and prints the rows. -/
def Prints {α : Type} (env : Env) (m : Exec Out α) (rs : List Row) : Prop :=
  ∀ o, wp m (fun _ o' => o'.lines = o.lines ++ rs.map (Row.line env)) o

section Prints

variable {α β : Type} {rs rs' : List Row}

theorem prints_pure (a : α) : Prints env (pure a) [] := by
  intro o
  rw [wp_pure]
  exact (List.append_nil o.lines).symm

theorem Prints.bind {m : Exec Out α} {f : α → Exec Out β} (hm : Prints env m rs)
    (hf : ∀ a, Prints env (f a) rs') : Prints env (m >>= f) (rs ++ rs') := by
  intro o
  rw [wp_bind]
  apply (hm o).mono
  intro a o' ho'
  apply (hf a o').mono
  intro _ o'' ho''
  rw [ho'', ho', List.map_append, List.append_assoc]

theorem prints_printLine (r : Row) : Prints env (printLine (r.line env)) [r] := by
  intro o
  rw [wp_printLine]
  rfl

theorem prints_countEntry (st : Stat) : Prints env (countEntry st) [] := by
  intro o
  rw [wp_countEntry]
  rfl

theorem Prints.when {c : Prop} [Decidable c] {m : Exec Out Unit} (hm : c → Prints env m rs) :
    Prints env (Exec.when c m) (if c then rs else []) := by
  unfold Exec.when
  split_ifs with hc
  · exact hm hc
  · exact prints_pure ()

end Prints

/-- The call for a directory, where there is one. -/
theorem Prints.descend {c : Prop} [Decidable c] {m : Exec Out ℤ} {rs : List Row}
    (hm : c → Prints env m rs) :
    Prints env (Exec.when c (do let _ ← m)) (if c then rs else []) := by
  apply Prints.when
  intro hc
  rw [← List.append_nil rs]
  exact (hm hc).bind fun _ => prints_pure ()

/-- The line of an entry that matches. -/
theorem prints_full (v : Visit) : Prints env
    (printLine (entryLine env (buildDisplayName 256 v.name v.depth) v.stat)) [.full v] := by
  rw [← Row.line_full]
  exact prints_printLine (.full v)

/-- An entry that matches is printed and counted. -/
theorem prints_entry (hm : Matches opt v) : Prints env (do
    printLine (entryLine env (buildDisplayName 256 v.name v.depth) v.stat)
    countEntry v.stat) (headRows env opt v) := by
  have hrows : headRows env opt v = [.full v] ++ [] := headRows_of_matches hm
  rw [hrows]
  exact (prints_full v).bind fun _ => prints_countEntry v.stat

/-- The line of an entry that is no directory. -/
theorem prints_leaf (hdir : v.stat.st_mode ≠ .dir) : Prints env
    (when (entryMatchesFilter opt v.name = true) (do
      printLine (entryLine env (buildDisplayName 256 v.name v.depth) v.stat)
      countEntry v.stat)) (headRows env opt v) := by
  unfold Exec.when
  by_cases hm : Matches opt v
  · rw [if_pos (matches_iff.mp hm)]
    exact prints_entry hm
  · rw [if_neg (mt matches_iff.mpr hm), headRows_of_hidden hm fun hd => hdir hd.1]
    exact prints_pure ()

/-- The line of a directory, once the look-ahead has answered. -/
theorem prints_head {b : Bool} (hdir : v.stat.st_mode = .dir)
    (hb : b = true ↔ ¬ Matches opt v ∧ v.depth < opt.max_depth ∧
      FoundBelow env opt v.path (v.depth + 1)) :
    Prints env (when ((entryMatchesFilter opt v.name || b) = true) (do
      if entryMatchesFilter opt v.name then
        printLine (entryLine env (buildDisplayName 256 v.name v.depth) v.stat)
        countEntry v.stat
      else printLine (.name (buildDisplayName 256 v.name v.depth)))) (headRows env opt v) := by
  unfold Exec.when
  by_cases hm : Matches opt v
  · have hself : entryMatchesFilter opt v.name = true := matches_iff.mp hm
    rw [if_pos (Bool.or_eq_true_iff.mpr (Or.inl hself)), if_pos hself]
    exact prints_entry hm
  · have hself : ¬ entryMatchesFilter opt v.name = true := mt matches_iff.mpr hm
    have hshown : (entryMatchesFilter opt v.name || b) = true ↔ b = true := by
      rw [Bool.or_eq_true_iff, or_iff_right hself]
    by_cases hfound : b = true
    · rw [if_pos (hshown.mpr hfound), if_neg hself, headRows_of_found hm hdir (hb.mp hfound).2,
        ← Row.line_name]
      exact prints_printLine (.name v)
    · rw [if_neg (mt hshown.mp hfound),
        headRows_of_hidden hm fun hd => hfound (hb.mpr ⟨hm, hd.2⟩)]
      exact prints_pure ()

/-- The loop without a filter leaves the directory at the first path that is too long. -/
theorem prints_listEntries {descend : Str → Exec Out ℤ} {below : Str → List Row}
    (hfilter : opt.filter = none) {es : List Dirent} (h : dn ≠ [])
    (hdescend : depth < opt.max_depth → ∀ path, path ≠ [] → Prints env (descend path) (below path)) :
    Prints env (listEntries env opt descend dn depth es)
      ((walked dn es).flatMap (entryRows env opt below dn depth)) := by
  induction es with
  | nil => exact prints_pure (1 : ℤ)
  | cons e es ih =>
    intro o
    unfold listEntries
    rw [wp_bind, (gives_makeChildPath_fits h e o).wp_iff]
    by_cases hfits : fits dn e = true
    · have hwalked : walked dn (e :: es) = e :: walked dn es := List.takeWhile_cons_of_pos hfits
      rw [if_pos hfits, hwalked, List.flatMap_cons]
      cases hst : env.lstat (childPath dn e.d_name) with
      | error errno =>
        simp only [hst]
        rw [entryRows_of_error _ hst, faultRows_of_unfiltered hfilter]
        exact (prints_printLine (.message _)).bind (fun _ => ih) o
      | ok st =>
        simp only [hst]
        have hdescent : Prints env (when (st.st_mode = .dir ∧ depth < opt.max_depth)
            (do let _ ← descend (childPath dn e.d_name)))
            (if st.st_mode = .dir ∧ depth < opt.max_depth then below (childPath dn e.d_name) else []) :=
          Prints.descend fun hd => hdescend hd.2 _ (childPath_ne_nil h e.d_name)
        rw [entryRows_of_ok _ hst, headRows_of_matches (matches_of_unfiltered hfilter _),
          List.append_assoc]
        exact ((prints_countEntry st).bind fun _ =>
          (prints_full ⟨childPath dn e.d_name, e.d_name, depth, st⟩).bind fun _ =>
            hdescent.bind fun _ => ih) o
    · have hwalked : walked dn (e :: es) = [] := List.takeWhile_cons_of_neg hfits
      rw [if_neg hfits, hwalked]
      exact prints_pure (-1 : ℤ) o

/-- So does the loop with a filter. -/
theorem prints_filterEntries {has_match : Str → Exec Out Bool} {descend : Str → Exec Out ℤ}
    {below : Str → List Row} {p : Str → Bool} (hfilter : opt.filter = some p) (any_match : ℤ)
    {es : List Dirent} (h : dn ≠ [])
    (hsearch : depth < opt.max_depth → ∀ path, path ≠ [] → ∀ o,
      Decides (has_match path) o (FoundBelow env opt path (depth + 1)))
    (hdescend : depth < opt.max_depth → ∀ path, path ≠ [] → Prints env (descend path) (below path)) :
    Prints env (filterEntries env opt has_match descend dn depth any_match es)
      ((walked dn es).flatMap (entryRows env opt below dn depth)) := by
  induction es generalizing any_match with
  | nil => exact prints_pure any_match
  | cons e es ih =>
    intro o
    unfold filterEntries
    rw [wp_bind, (gives_makeChildPath_fits h e o).wp_iff]
    by_cases hfits : fits dn e = true
    · have hwalked : walked dn (e :: es) = e :: walked dn es := List.takeWhile_cons_of_pos hfits
      rw [if_pos hfits, hwalked, List.flatMap_cons]
      have hpath := childPath_ne_nil h e.d_name
      cases hst : env.lstat (childPath dn e.d_name) with
      | error errno =>
        simp only [hst]
        rw [entryRows_of_error _ hst, faultRows_of_filter hfilter]
        exact (Prints.when fun _ => prints_printLine (.message _)).bind (fun _ => ih _) o
      | ok st =>
        simp only [hst]
        rw [entryRows_of_ok _ hst]
        have hdescent : Prints env (when (depth < opt.max_depth)
            (do let _ ← descend (childPath dn e.d_name)))
            (if depth < opt.max_depth then below (childPath dn e.d_name) else []) :=
          Prints.descend fun hlt => hdescend hlt _ hpath
        show wp (if st.st_mode = .dir then _ else _) _ o
        by_cases hdir : st.st_mode = .dir
        · have hrest (b : Bool) (hb : b = true ↔ ¬ opt.Selects e.d_name ∧ depth < opt.max_depth ∧
              FoundBelow env opt (childPath dn e.d_name) (depth + 1)) :=
            (prints_head (v := ⟨childPath dn e.d_name, e.d_name, depth, st⟩) hdir hb).bind fun _ =>
              hdescent.bind fun _ =>
                ih (if (entryMatchesFilter opt e.d_name || b) = true then 1 else any_match)
          have hif : (if st.st_mode = .dir ∧ depth < opt.max_depth then
              below (childPath dn e.d_name) else [])
              = if depth < opt.max_depth then below (childPath dn e.d_name) else [] :=
            if_congr (and_iff_right hdir) rfl rfl
          rw [if_pos hdir, hif, List.append_assoc, wp_ite]
          constructor
          · intro hask
            obtain ⟨b, hgives, hb⟩ := hsearch hask.2 _ hpath o
            rw [wp_bind, hgives.wp_iff]
            have hm : ¬ opt.Selects e.d_name := mt selects_iff.mp (Bool.eq_false_iff.mp hask.1)
            exact hrest b (hb.trans ⟨fun hf => ⟨hm, hask.2, hf⟩, fun hf => hf.2.2⟩) o
          · intro hask
            rw [wp_bind, wp_pure]
            apply hrest false
            apply iff_of_false (by decide)
            exact fun hf => hask ⟨Bool.eq_false_iff.mpr (mt selects_iff.mpr hf.1), hf.2.1⟩
        · have hleaf : ¬ (st.st_mode = .dir ∧ depth < opt.max_depth) := fun hd => hdir hd.1
          rw [if_neg hdir, if_neg hleaf, List.append_nil]
          exact (prints_leaf (v := ⟨childPath dn e.d_name, e.d_name, depth, st⟩) hdir).bind
            (fun _ => ih (if entryMatchesFilter opt e.d_name = true then 1 else any_match)) o
    · have hwalked : walked dn (e :: es) = [] := List.takeWhile_cons_of_neg hfits
      rw [if_neg hfits, hwalked]
      exact prints_pure (-1 : ℤ) o

/-- **What `process_dir` prints**: the rows, whatever the file system answers.  The induction is on the levels
that are left. -/
theorem prints_processDir {fuel : ℕ} (hempty : ∀ entries, env.opendir [] ≠ .ok entries)
    (hpos : 0 < fuel) (hfuel : opt.max_depth < fuel + depth) :
    Prints env (processDir env opt fuel dn depth) (rows env opt dn depth) := by
  induction fuel generalizing dn depth with
  | zero => cases hpos
  | succ fuel ih =>
    rw [rows_eq]
    unfold processDir dirRows
    cases hopen : env.opendir dn with
    | error errno =>
      have hrows : errorRows errno depth = (if errno = .EACCES then
            [.message (.error ((depth - 1) * 2) "Permission denied")] else [])
          ++ ((if errno = .ENOENT then [.message (.error 0 "No such file or directory")] else []) ++ []) := by
        rw [List.append_nil]
        rfl
      show Prints env _ (errorRows errno depth)
      rw [hrows]
      refine (Prints.when fun _ => prints_printLine (.message _)).bind fun _ => ?_
      exact (Prints.when fun _ => prints_printLine (.message _)).bind fun _ => prints_pure (0 : ℤ)
    | ok entries =>
      have hdn : dn ≠ [] := by
        rintro rfl
        exact hempty entries hopen
      have hdescend : depth < opt.max_depth → ∀ path, path ≠ [] →
          Prints env (processDir env opt fuel path (depth + 1)) (rows env opt path (depth + 1)) :=
        fun hlt path _ => ih (by omega) (by omega)
      cases hfilter : opt.filter with
      | none => exact prints_listEntries hfilter hdn hdescend
      | some p =>
        apply prints_filterEntries hfilter 0 hdn _ hdescend
        intro hlt path hpath o
        exact decides_subtreeHasMatch_found hpath hlt (by omega)

/-- **A directory that is listed by name has a match that is listed in full**, whatever the file system
answers, if and only if in every directory that would be listed so a match is reached without going past a
path that is too long.  The rows of the directory are what is printed behind its name. -/
theorem filtered_parents_have_matches (env : Env) (opt : Options)
    (hempty : ∀ entries, env.opendir [] ≠ .ok entries) (dn : Str)
    (fuel : ℕ) (hpos : 0 < fuel) (hfuel : opt.max_depth ≤ fuel) (o : Out) :
    wp (processDir env opt fuel dn 1)
        (fun _ o' => o'.lines = o.lines ++ (rows env opt dn 1).map (Row.line env)) o ∧
      (∀ v, Row.name v ∈ rows env opt dn 1 →
        List.IsInfix (Row.name v :: rows env opt v.path (v.depth + 1)) (rows env opt dn 1)) ∧
      ((∀ v, Row.name v ∈ rows env opt dn 1 → ∃ x, Row.full x ∈ rows env opt v.path (v.depth + 1)) ↔
        ∀ v, Meets env opt walked dn 1 v → v.stat.st_mode = .dir → ¬ Matches opt v →
          v.depth < opt.max_depth →
          (∃ x, Meets env opt searched v.path (v.depth + 1) x ∧ Matches opt x) →
          ∃ x, Meets env opt walked v.path (v.depth + 1) x ∧ Matches opt x) := by
  refine ⟨prints_processDir hempty hpos (by omega) o, fun v => name_block, ?_⟩
  simp only [full_mem_rows, name_mem_rows]
  constructor
  · intro h v hv hdir hm hdepth hfound
    exact h v ⟨hv, hm, hdir, hdepth, hfound⟩
  · rintro h v ⟨hv, hm, hdir, hdepth, hfound⟩
    exact h v hv hdir hm hdepth hfound

section Sample

/-- A path of 1018 characters, `./` again and again. -/
def longRoot : Str := (List.replicate 509 [dot, slash]).flatten

/-- The directory `a` under the long path. -/
def longDir : Str := longRoot ++ [letterA]

/-- The files of the directory `a`: `aaaaa`, whose path has 1025 characters, and `b`. -/
def longEntries : List Dirent := [⟨.reg, [letterA, letterA, letterA, letterA, letterA]⟩, ⟨.reg, [letterB]⟩]

def faultyEnv : Env where
  opendir path :=
    if path = longRoot then .ok [⟨.dir, [letterA]⟩]
    else if path = longDir then .ok longEntries
    else .error .ENOENT
  lstat path :=
    if path = longDir then .ok (statOf .dir)
    else if path = longDir ++ [slash, letterB] then .ok (statOf .reg)
    else .error .ENOENT
  getpwuid _ := none
  getgrgid _ := none

/-- Two levels deep, with the filter `b`. -/
def filterB : Options := ⟨2, some fun name => name = [letterB]⟩

theorem sortedEntries_of_pairwise {es : List Dirent} (h : ∀ e ∈ es, ignored e = false)
    (hle : es.Pairwise fun e1 e2 => decide (direntCompare e1 e2 ≤ 0) = true) : sortedEntries es = es := by
  have hall : (es.filter fun e => !ignored e) = es :=
    List.filter_eq_self.mpr fun e he => by rw [h e he]; rfl
  rw [sortedEntries, hall]
  exact List.mergeSort_of_pairwise hle

theorem sorted_longEntries : sortedEntries longEntries = longEntries :=
  sortedEntries_of_pairwise (by decide) (by decide)

/-- The look-ahead finds `b`. -/
theorem found_longDir : FoundBelow faultyEnv filterB longDir 2 := by
  refine ⟨⟨childPath longDir [letterB], [letterB], 2, statOf .reg⟩, .entry ?_, by decide⟩
  refine ⟨longEntries, by decide +kernel, ⟨.reg, [letterB]⟩, ?_, statOf .reg, by decide +kernel, rfl⟩
  rw [sorted_longEntries]
  decide +kernel

/-- Nothing is printed for the directory `a`: its first entry has a path that is too long. -/
theorem rows_longDir : rows faultyEnv filterB longDir 2 = [] := by
  have hopen : faultyEnv.opendir longDir = .ok longEntries := by decide +kernel
  have hwalked : walked longDir longEntries = [] := by decide +kernel
  rw [rows_eq]
  unfold dirRows
  rw [hopen]
  show (walked longDir (sortedEntries longEntries)).flatMap _ = []
  rw [sorted_longEntries, hwalked]
  rfl

theorem rows_longRoot : rows faultyEnv filterB longRoot 1
    = [.name ⟨longDir, [letterA], 1, statOf .dir⟩] := by
  have hopen : faultyEnv.opendir longRoot = .ok [⟨.dir, [letterA]⟩] := by decide +kernel
  have hwalked : walked longRoot [⟨.dir, [letterA]⟩] = [⟨.dir, [letterA]⟩] := by decide +kernel
  have hsorted : sortedEntries [⟨.dir, [letterA]⟩] = [⟨.dir, [letterA]⟩] :=
    sortedEntries_of_pairwise (by decide) (by decide)
  have hpath : childPath longRoot [letterA] = longDir := by decide +kernel
  have hstat : faultyEnv.lstat (childPath longRoot (Dirent.mk .dir [letterA]).d_name)
      = .ok (statOf .dir) := by decide +kernel
  have hhead : headRows faultyEnv filterB ⟨longDir, [letterA], 1, statOf .dir⟩
      = [.name ⟨longDir, [letterA], 1, statOf .dir⟩] :=
    headRows_of_found (by decide) rfl ⟨by decide, found_longDir⟩
  rw [rows_eq]
  unfold dirRows
  rw [hopen]
  show (walked longRoot (sortedEntries [⟨.dir, [letterA]⟩])).flatMap _ = _
  rw [hsorted, hwalked, List.flatMap_singleton, entryRows_of_ok _ hstat, hpath, hhead, rows_longDir,
    ite_self, List.append_nil]

/-- The directory `a` is listed by name, and nothing else is listed. -/
theorem filtered_parents_have_matches_fails :
    wp (processDir faultyEnv filterB 2 longRoot 1)
      (fun _ o' => o'.lines = [.name (nameColumn 1 [letterA])]) ⟨[], summaryOf []⟩ := by
  have hempty : faultyEnv.opendir [] = .error .ENOENT := by decide +kernel
  have hprints : Prints faultyEnv (processDir faultyEnv filterB 2 longRoot 1)
      (rows faultyEnv filterB longRoot 1) := by
    apply prints_processDir _ (by decide) (by decide)
    intro entries h
    rw [hempty] at h
    cases h
  apply (hprints ⟨[], summaryOf []⟩).mono
  intro _ o' ho'
  rw [ho', rows_longRoot]
  rfl

/-- The sample with the filter `b`. -/
theorem filtered_parents_have_matches_sample :
    wp (processDir sampleEnv filterB 2 [dot] 1) (fun _ o' => o'.lines
        = [] ++ (rows sampleEnv filterB [dot] 1).map (Row.line sampleEnv)) ⟨[], summaryOf []⟩ ∧
      (∀ v, Row.name v ∈ rows sampleEnv filterB [dot] 1 → List.IsInfix
        (Row.name v :: rows sampleEnv filterB v.path (v.depth + 1)) (rows sampleEnv filterB [dot] 1)) ∧
      ((∀ v, Row.name v ∈ rows sampleEnv filterB [dot] 1 →
          ∃ x, Row.full x ∈ rows sampleEnv filterB v.path (v.depth + 1)) ↔
        ∀ v, Meets sampleEnv filterB walked [dot] 1 v → v.stat.st_mode = .dir → ¬ Matches filterB v →
          v.depth < filterB.max_depth →
          (∃ x, Meets sampleEnv filterB searched v.path (v.depth + 1) x ∧ Matches filterB x) →
          ∃ x, Meets sampleEnv filterB walked v.path (v.depth + 1) x ∧ Matches filterB x) :=
  filtered_parents_have_matches sampleEnv filterB
    (fun entries h => by cases h) [dot] 2 (by decide) (by decide) ⟨[], summaryOf []⟩

end Sample

end SystemProgramming.Dirtree
