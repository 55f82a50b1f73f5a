import SystemProgramming.Dirtree.Main

/-!
# The order in which a directory is read

`readdir` returns the entries of a directory in any order, and `qsort` may leave equal ones in any order.  As
no two entries of a directory have one name, what `dirent_compare` sorts is the same list all the same
(`qsort_unique`), and nothing that `dirtree` writes depends on the order (`main_read_order`).

* `qsort_unique`: two sorted arrangements of entries with different names are the same.
* `Reordered.processDir`: a listing does not depend on the order in which directories are read.
* `main_read_order`: nor does anything else that `dirtree` writes.
-/

namespace SystemProgramming.Dirtree

open Exec

variable {env env' : Env} {opt : Options} {es es' : List Dirent} {e₁ e₂ e₃ : Dirent}

/-! ### `dirent_compare` is an order -/

/-- The order that `qsort` is given. -/
def NotAfter (e₁ e₂ : Dirent) : Prop := direntCompare e₁ e₂ ≤ 0

instance (e₁ e₂ : Dirent) : Decidable (NotAfter e₁ e₂) := inferInstanceAs (Decidable (_ ≤ _))

/-- Directories first, then by name. -/
theorem notAfter_iff : NotAfter e₁ e₂ ↔
    if e₁.d_type = .dir ↔ e₂.d_type = .dir then e₁.d_name ≤ e₂.d_name else e₁.d_type = .dir := by
  have h := le_eq_direntCompare (.mk e₁.d_name ⟨e₁.d_type, 0, 0, 0, 0⟩ [])
    (.mk e₂.d_name ⟨e₂.d_type, 0, 0, 0, 0⟩ [])
  have hle : NotAfter e₁ e₂ ↔ Tree.le (.mk e₁.d_name ⟨e₁.d_type, 0, 0, 0, 0⟩ [])
      (.mk e₂.d_name ⟨e₂.d_type, 0, 0, 0, 0⟩ []) = true := by
    rw [h, decide_eq_true_iff]
    rfl
  rw [hle]
  show (if e₁.d_type = .dir ↔ e₂.d_type = .dir then decide (e₁.d_name ≤ e₂.d_name)
    else decide (e₁.d_type = .dir)) = true ↔ _
  split_ifs <;> rw [decide_eq_true_iff]

theorem NotAfter.trans (h₁ : NotAfter e₁ e₂) (h₂ : NotAfter e₂ e₃) : NotAfter e₁ e₃ := by
  rw [notAfter_iff] at *
  by_cases hd₁ : e₁.d_type = .dir <;> by_cases hd₂ : e₂.d_type = .dir <;>
    by_cases hd₃ : e₃.d_type = .dir <;> simp_all
  all_goals exact List.le_trans h₁ h₂

theorem notAfter_total (e₁ e₂ : Dirent) : NotAfter e₁ e₂ ∨ NotAfter e₂ e₁ := by
  rw [notAfter_iff, notAfter_iff]
  by_cases hd₁ : e₁.d_type = .dir <;> by_cases hd₂ : e₂.d_type = .dir <;> simp_all
  all_goals exact List.le_total _ _

/-- Entries that compare equal have one name. -/
theorem NotAfter.name_eq (h₁ : NotAfter e₁ e₂) (h₂ : NotAfter e₂ e₁) : e₁.d_name = e₂.d_name := by
  rw [notAfter_iff] at *
  by_cases hd₁ : e₁.d_type = .dir <;> by_cases hd₂ : e₂.d_type = .dir <;> simp_all
  all_goals exact List.le_antisymm h₁ h₂

/-! ### Sorting -/

/-- No two entries have one name. -/
def DistinctNames (es : List Dirent) : Prop := (es.map Dirent.d_name).Nodup

instance (es : List Dirent) : Decidable (DistinctNames es) := inferInstanceAs (Decidable (List.Nodup _))

theorem DistinctNames.eq (h : DistinctNames es) (h₁ : e₁ ∈ es) (h₂ : e₂ ∈ es)
    (hname : e₁.d_name = e₂.d_name) : e₁ = e₂ :=
  List.inj_on_of_nodup_map h h₁ h₂ hname

/-- **Whatever `qsort` does, it makes one list**: two sorted arrangements of entries with different
names are the same. -/
theorem qsort_unique (hperm : es.Perm es') (h : es.Pairwise NotAfter) (h' : es'.Pairwise NotAfter)
    (hnames : DistinctNames es) : es = es' := by
  apply hperm.eq_of_pairwise _ h h'
  intro e₁ e₂ h₁ h₂ hle hge
  exact hnames.eq h₁ (hperm.mem_iff.mpr h₂) (hle.name_eq hge)

theorem sortedEntries_perm (es : List Dirent) :
    (sortedEntries es).Perm (es.filter fun e => !ignored e) := List.mergeSort_perm _ _

theorem sortedEntries_pairwise (es : List Dirent) : (sortedEntries es).Pairwise NotAfter := by
  have hsorted : (sortedEntries es).Pairwise fun e₁ e₂ => decide (NotAfter e₁ e₂) = true := by
    apply List.pairwise_mergeSort
    · intro a b c hab hbc
      exact decide_eq_true ((of_decide_eq_true hab).trans (of_decide_eq_true hbc))
    · intro a b
      rw [Bool.or_eq_true, decide_eq_true_iff, decide_eq_true_iff]
      exact notAfter_total a b
  exact hsorted.imp of_decide_eq_true

/-- The order in which the entries are read is lost. -/
theorem sortedEntries_eq_of_perm (hperm : es.Perm es') (hnames : DistinctNames es) :
    sortedEntries es = sortedEntries es' := by
  have hfilter := hperm.filter fun e => !ignored e
  apply qsort_unique
  · exact (sortedEntries_perm es).trans (hfilter.trans (sortedEntries_perm es').symm)
  · exact sortedEntries_pairwise es
  · exact sortedEntries_pairwise es'
  · have hsub : (es.filter fun e => !ignored e).Sublist es := List.filter_sublist
    have hnodup : DistinctNames (es.filter fun e => !ignored e) :=
      List.Nodup.sublist (hsub.map Dirent.d_name) hnames
    exact ((sortedEntries_perm es).map Dirent.d_name).nodup_iff.mpr hnodup

/-! ### File systems that differ in the order -/

/-- Two file systems that give the entries of a directory in different orders, and are the same otherwise. -/
structure Reordered (env env' : Env) : Prop where
  lstat : env'.lstat = env.lstat
  getpwuid : env'.getpwuid = env.getpwuid
  getgrgid : env'.getgrgid = env.getgrgid
  failed : ∀ path errno, env.opendir path = .error errno → env'.opendir path = .error errno
  read : ∀ path es, env.opendir path = .ok es →
    DistinctNames es ∧ ∃ es', env'.opendir path = .ok es' ∧ es.Perm es'

theorem Reordered.entryLine (h : Reordered env env') : entryLine env' = entryLine env := by
  funext namecol st
  unfold Dirtree.entryLine lookupUser lookupGroup
  rw [h.getpwuid, h.getgrgid]

theorem Reordered.searchEntries (h : Reordered env env') (descend : Str → Exec Out Bool) (dn : Str)
    (depth : ℕ) (es : List Dirent) :
    searchEntries env' opt descend dn depth es = searchEntries env opt descend dn depth es := by
  induction es with
  | nil => rfl
  | cons e es ih =>
    unfold Dirtree.searchEntries
    rw [h.lstat, ih]

theorem Reordered.listEntries (h : Reordered env env') (descend : Str → Exec Out ℤ) (dn : Str)
    (depth : ℕ) (es : List Dirent) :
    listEntries env' opt descend dn depth es = listEntries env opt descend dn depth es := by
  induction es with
  | nil => rfl
  | cons e es ih =>
    unfold Dirtree.listEntries
    rw [h.lstat, h.entryLine, ih]

theorem Reordered.filterEntries (h : Reordered env env') (has_match : Str → Exec Out Bool)
    (descend : Str → Exec Out ℤ) (dn : Str) (depth : ℕ) (any_match : ℤ) (es : List Dirent) :
    filterEntries env' opt has_match descend dn depth any_match es
      = filterEntries env opt has_match descend dn depth any_match es := by
  induction es generalizing any_match with
  | nil => rfl
  | cons e es ih =>
    unfold Dirtree.filterEntries
    simp only [h.lstat, h.entryLine, ih]

theorem Reordered.subtreeHasMatch (h : Reordered env env') (fuel : ℕ) (dn : Str) (depth : ℕ) :
    subtreeHasMatch env' opt fuel dn depth = subtreeHasMatch env opt fuel dn depth := by
  induction fuel generalizing dn depth with
  | zero => rfl
  | succ fuel ih =>
    unfold Dirtree.subtreeHasMatch
    cases hopen : env.opendir dn with
    | error errno => rw [h.failed dn errno hopen]
    | ok es =>
      obtain ⟨hnames, es', hopen', hperm⟩ := h.read dn es hopen
      rw [hopen']
      simp only [sortedEntries_eq_of_perm hperm hnames, h.searchEntries, ih]

/-- **The listing does not depend on the order**, with or without a filter. -/
theorem Reordered.processDir (h : Reordered env env') (fuel : ℕ) (dn : Str) (depth : ℕ) :
    processDir env' opt fuel dn depth = processDir env opt fuel dn depth := by
  induction fuel generalizing dn depth with
  | zero => rfl
  | succ fuel ih =>
    unfold Dirtree.processDir
    cases hopen : env.opendir dn with
    | error errno => rw [h.failed dn errno hopen]
    | ok es =>
      obtain ⟨hnames, es', hopen', hperm⟩ := h.read dn es hopen
      rw [hopen']
      simp only [sortedEntries_eq_of_perm hperm hnames, h.listEntries, h.filterEntries,
        h.subtreeHasMatch, ih]

theorem Reordered.processRoots (h : Reordered env env') (directories : List Str) :
    processRoots env' opt directories = processRoots env opt directories := by
  induction directories with
  | nil => rfl
  | cons dn directories ih =>
    unfold Dirtree.processRoots processRoot
    rw [h.lstat, h.processDir, ih]

/-- **What `dirtree` writes does not depend on the order in which directories are read.** -/
theorem main_read_order (h : Reordered env env') (argv : List Str) :
    main env' argv = main env argv := by
  unfold main
  simp only [h.processRoots]

/-- The sample, read from the end. -/
def backwardsEnv : Env :=
  { rootEnv with opendir := fun path => (rootEnv.opendir path).map List.reverse }

theorem reordered_backwardsEnv : Reordered rootEnv backwardsEnv where
  lstat := rfl
  getpwuid := rfl
  getgrgid := rfl
  failed path errno h := by
    show (rootEnv.opendir path).map List.reverse = _
    rw [h]
    rfl
  read path es h := by
    have hnames : DistinctNames es := by
      change (if path = [dot] then _ else _) = _ at h
      split_ifs at h <;> cases h <;> decide
    refine ⟨hnames, es.reverse, ?_, es.reverse_perm.symm⟩
    show (rootEnv.opendir path).map List.reverse = _
    rw [h]
    rfl

theorem main_read_order_sample : main backwardsEnv sampleArgs = main rootEnv sampleArgs :=
  main_read_order reordered_backwardsEnv sampleArgs

end SystemProgramming.Dirtree
