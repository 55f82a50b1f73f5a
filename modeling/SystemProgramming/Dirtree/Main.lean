import SystemProgramming.Dirtree.Arguments
import SystemProgramming.Dirtree.Tally
import SystemProgramming.Dirtree.Validate

/-!
# `main` of `dirtree`

The program from its arguments to its exit code: the arguments, the check of the pattern, the roots one after
the other, each with its header and its summary, and the totals at the end.  The output is one
list in the order in which it is written; what goes to `stderr` is in it.

* `patternFilter_iff`: what the filter answers is whether a part of the name is in the language of the pattern.
* `main_report`: `dirtree` returns and writes a report on each root, whatever the file system answers.
* `main_listing`: where the roots hold trees, these reports are the listings of the trees.
-/

namespace SystemProgramming.Dirtree

open Exec Lang

/-- What the program writes, with the arguments of the formats. -/
inductive Printed where
  | warning (path : Str)
  | usage (error : SyntaxError)
  | invalidPattern
  | header
  | root (path : Str)
  | line (l : Line)
  | summary (stats : Summary)
  | aggregate (total : Summary) (ndir : ℕ)
  deriving DecidableEq

/-- What has been written, `individual_summary` and `tstat`. -/
structure Report where
  printed : List Printed
  individual_summary : Summary
  tstat : Summary
  deriving DecidableEq

/-- `summary_reset` -/
def summaryReset : Summary := ⟨0, 0, 0, 0, 0, 0, 0⟩

/-- The state in which `main` starts. -/
def Report.start : Report := ⟨[], summaryReset, summaryReset⟩

def print (x : Printed) : Exec Report Unit := Exec.modify fun r => { r with printed := r.printed ++ [x] }

/-- `print_directory_summary(&individual_summary)` -/
def printDirectorySummary : Exec Report Unit :=
  Exec.modify fun r => { r with printed := r.printed ++ [.summary r.individual_summary] }

/-- `summary_add(&tstat, &individual_summary)` -/
def addToTotal : Exec Report Unit :=
  Exec.modify fun r => { r with tstat := summaryAdd r.tstat r.individual_summary }

/-- `print_aggregate_summary(&tstat, ndir)` -/
def printAggregateSummary (ndir : ℕ) : Exec Report Unit :=
  when (1 < ndir) (Exec.modify fun r => { r with printed := r.printed ++ [.aggregate r.tstat ndir] })

/-- A function of the listing, which writes lines and is given `&individual_summary`. -/
def inListing {α : Type} : Exec Out α → Exec Report α :=
  zoom (fun r => ⟨[], r.individual_summary⟩) fun r o =>
    { r with printed := r.printed ++ o.lines.map .line, individual_summary := o.stats }

/-- One round of the loop over the directories. -/
def processRoot (env : Env) (opt : Options) (dn : Str) : Exec Report Unit := do
  Exec.modify fun r => { r with individual_summary := summaryReset }
  print .header
  print (.root dn)
  match env.lstat dn with
  | .error errno =>
    if errno = .ENOENT then
      inListing printMissingPathLine
      printDirectorySummary
      addToTotal
    else
      printDirectorySummary
      addToTotal
  | .ok _ =>
    let _ ← inListing (processDir env opt MAX_DEPTH.toNat dn 1)
    printDirectorySummary
    addToTotal

/-- The loop over the directories. -/
def processRoots (env : Env) (opt : Options) : List Str → Exec Report Unit
  | [] => pure ()
  | dn :: directories => do
    processRoot env opt dn
    processRoots env opt directories

/-- `match(·, pattern)`, which is given time for every pattern that passes the check. -/
def patternFilter (pattern name : Str) : Bool :=
  (matchStr (name.length + pattern.length + 1) (some name) (some pattern) ()).value = some true

/-- The globals `max_depth`, `pattern` and the flag `F_Filter`. -/
def Settings.options (a : Settings) : Options where
  max_depth := a.max_depth.toNat
  filter := if a.filter then a.pattern.map patternFilter else none

/-- The directories, the current one if none is given. -/
def Settings.roots (a : Settings) : List Str := if a.directories = [] then [[dot]] else a.directories

/-- The warnings about paths for which there is no room. -/
def printWarnings : List Str → Exec Report Unit
  | [] => pure ()
  | path :: ignored => do
    print (.warning path)
    printWarnings ignored

/-- `syntax`: what it writes, and the code it exits with. -/
def syntaxExit (e : SyntaxError) : Exec Report ℤ := do
  print (.usage e)
  return if e = .help then 0 else 1

/-- `main`, with the exit code of the program.  `argv` is without the name of the program. -/
def main (env : Env) (argv : List Str) : Exec Report ℤ := do
  let (a, error) := parseArgs argv .default
  printWarnings a.ignored
  match error with
  | some e => syntaxExit e
  | none =>
    if a.filter = true ∧ (validatePattern a.pattern ()).value = some false then
      print .invalidPattern
      return 1
    processRoots env a.options a.roots
    printAggregateSummary a.roots.length
    return 0

/-! ### What is to be printed -/

/-- What is printed for a root, with the lines for the entries below it. -/
def rootReport (dn : Str) (ls : List Line) : List Printed :=
  .header :: .root dn :: (ls.map Printed.line ++ [.summary (tally ls)])

/-- The reports on the roots. -/
def rootReports (parts : List (Str × List Line)) : List Printed :=
  parts.flatMap fun x => rootReport x.1 x.2

/-- What is printed for all roots. -/
def report (parts : List (Str × List Line)) : List Printed :=
  rootReports parts
    ++ if 1 < parts.length then [.aggregate (tally (parts.flatMap Prod.snd)) parts.length] else []

variable {env : Env} {opt : Options} {dn : Str} {a : Settings} {r : Report}

/-! ### One root -/

/-- A root is reported with lines that satisfy `P`, and its summary is added to the totals. -/
def Reports (env : Env) (opt : Options) (dn : Str) (P : List Line → Prop) : Prop :=
  ∀ r, wp (processRoot env opt dn) (fun _ r' => ∃ ls, P ls ∧
    r'.printed = r.printed ++ rootReport dn ls ∧ r'.tstat = summaryAdd r.tstat (tally ls)) r

theorem tally_nil_summaryAdd (s : Summary) : summaryAdd (tally []) s = s := by
  cases s
  simp [summaryAdd, tally]

/-- What is done once the lines of a root have been written. -/
theorem wp_closing {Q : Unit → Report → Prop} : wp (do printDirectorySummary; addToTotal) Q r ↔
    Q () ⟨r.printed ++ [.summary r.individual_summary], r.individual_summary,
      summaryAdd r.tstat r.individual_summary⟩ := by
  unfold printDirectorySummary addToTotal
  rw [wp_bind, wp_modify, wp_modify]

theorem printed_rootReport (xs : List Printed) (dn : Str) (ls : List Line) :
    xs ++ [.header] ++ [.root dn] ++ ls.map Printed.line ++ [.summary (tally ls)]
      = xs ++ rootReport dn ls := by
  simp [rootReport]

/-- The listing of a root, from a summary that has been reset. -/
theorem reports_of_listing {st : Stat} {P : List Line → Prop} (hroot : env.lstat dn = .ok st)
    (h : wp (processDir env opt MAX_DEPTH.toNat dn 1)
      (fun _ o => P o.lines ∧ o.stats = tally o.lines) ⟨[], tally []⟩) : Reports env opt dn P := by
  intro r
  unfold processRoot print inListing
  rw [wp_bind, wp_modify, wp_bind, wp_modify, wp_bind, wp_modify]
  simp only [hroot]
  rw [wp_bind, wp_zoom]
  apply h.mono
  rintro _ o ⟨hP, hstats⟩
  rw [wp_closing]
  refine ⟨o.lines, hP, ?_, ?_⟩
  · rw [hstats]
    exact printed_rootReport r.printed dn o.lines
  · rw [hstats]

/-- A root without an `lstat`. -/
theorem reports_of_error {errno : Errno} (hroot : env.lstat dn = .error errno) :
    Reports env opt dn
      (· = if errno = .ENOENT then [.error 0 "No such file or directory"] else []) := by
  intro r
  unfold processRoot print inListing printMissingPathLine
  rw [wp_bind, wp_modify, wp_bind, wp_modify, wp_bind, wp_modify]
  simp only [hroot]
  rw [wp_ite]
  constructor
  · intro hmissing
    rw [wp_bind, wp_zoom, wp_printLine, wp_closing, if_pos hmissing]
    exact ⟨_, rfl, printed_rootReport r.printed dn [.error 0 "No such file or directory"], rfl⟩
  · intro hother
    rw [wp_closing, if_neg hother]
    refine ⟨_, rfl, ?_, rfl⟩
    rw [← printed_rootReport, List.map_nil, List.append_nil]
    rfl

/-- The lines for a root: one about an `lstat` that fails because there is no such file, none if it fails
otherwise, and the rows of what is there. -/
def BelowRoot (env : Env) (opt : Options) (dn : Str) (ls : List Line) : Prop :=
  match env.lstat dn with
  | .error errno => ls = if errno = .ENOENT then [.error 0 "No such file or directory"] else []
  | .ok _ => ls = (rows env opt dn 1).map (Row.line env)

/-- Whatever the file system answers, a root is reported. -/
theorem reports_root (hempty : ∀ entries, env.opendir [] ≠ .ok entries)
    (hmax : opt.max_depth ≤ MAX_DEPTH.toNat) (dn : Str) : Reports env opt dn (BelowRoot env opt dn) := by
  unfold BelowRoot
  cases hroot : env.lstat dn with
  | error errno => exact reports_of_error hroot
  | ok st =>
    have hfuel : opt.max_depth < MAX_DEPTH.toNat + 1 := by omega
    have htally : Tallies (processDir env opt MAX_DEPTH.toNat dn 1) :=
      tallies_processDir hempty (by decide) hfuel
    have hrows : Prints env (processDir env opt MAX_DEPTH.toNat dn 1) (rows env opt dn 1) :=
      prints_processDir hempty (by decide) hfuel
    apply reports_of_listing hroot
    apply ((htally ⟨[], tally []⟩).and (hrows ⟨[], tally []⟩)).mono
    rintro _ o ⟨⟨ls, hlines, hstats⟩, hrows⟩
    refine ⟨hrows, ?_⟩
    rw [hstats, hlines, tally_nil_summaryAdd, List.nil_append]

/-! ### The loops of `main` -/

theorem tally_flatMap_cons (x : Str × List Line) (parts : List (Str × List Line)) (s : Summary) :
    summaryAdd (summaryAdd s (tally x.2)) (tally (parts.flatMap Prod.snd))
      = summaryAdd s (tally ((x :: parts).flatMap Prod.snd)) := by
  rw [List.flatMap_cons, tally_append, summaryAdd_assoc]

/-- The loop over the directories. -/
theorem wp_processRoots {P : Str → List Line → Prop} {directories : List Str}
    (h : ∀ dn ∈ directories, Reports env opt dn (P dn)) :
    wp (processRoots env opt directories) (fun _ r' => ∃ parts : List (Str × List Line),
      parts.map Prod.fst = directories ∧ (∀ x ∈ parts, P x.1 x.2) ∧
      r'.printed = r.printed ++ rootReports parts ∧
      r'.tstat = summaryAdd r.tstat (tally (parts.flatMap Prod.snd))) r := by
  induction directories generalizing r with
  | nil =>
    unfold processRoots
    rw [wp_pure]
    refine ⟨[], rfl, List.forall_mem_nil _, (List.append_nil _).symm, ?_⟩
    exact (summaryAdd_tally_nil r.tstat).symm
  | cons dn directories ih =>
    unfold processRoots
    rw [wp_bind]
    apply (h dn List.mem_cons_self r).mono
    rintro _ r₁ ⟨ls, hls, hprinted, htstat⟩
    apply (ih fun dn' hdn' => h dn' (List.mem_cons_of_mem dn hdn')).mono
    rintro _ r₂ ⟨parts, hroots, hparts, hprinted', htstat'⟩
    refine ⟨(dn, ls) :: parts, ?_, ?_, ?_, ?_⟩
    · rw [List.map_cons, hroots]
    · exact List.forall_mem_cons.mpr ⟨hls, hparts⟩
    · rw [hprinted', hprinted, List.append_assoc]
      rfl
    · rw [htstat', htstat, ← tally_flatMap_cons]

theorem wp_printWarnings {Q : Unit → Report → Prop} (ignored : List Str) :
    wp (printWarnings ignored) Q r ↔
      Q () { r with printed := r.printed ++ ignored.map Printed.warning } := by
  induction ignored generalizing r with
  | nil =>
    unfold printWarnings
    rw [wp_pure, List.map_nil, List.append_nil]
  | cons path ignored ih =>
    unfold printWarnings print
    rw [wp_bind, wp_modify, ih, List.map_cons, List.append_assoc]
    rfl

/-! ### The settings of a run -/

/-- What the arguments set, when they are accepted. -/
structure Settings.Sound (a : Settings) : Prop where
  depth_pos : 1 ≤ a.max_depth
  depth_le : a.max_depth ≤ MAX_DEPTH
  filter_iff : a.filter = a.pattern.isSome

theorem sound_of_parseArgs {argv : List Str} (h : parseArgs argv .default = (a, none)) : a.Sound := by
  obtain ⟨is, his, -, rfl⟩ := ((command_line_exact argv).1 a).mp h
  have hdepth : 1 ≤ (settingsOf is).max_depth ∧ (settingsOf is).max_depth ≤ MAX_DEPTH := by
    show 1 ≤ ((is.filterMap Argument.depth?).getLast?.map atoi).getD MAX_DEPTH ∧
      ((is.filterMap Argument.depth?).getLast?.map atoi).getD MAX_DEPTH ≤ MAX_DEPTH
    cases hlast : (is.filterMap Argument.depth?).getLast? with
    | none => exact ⟨by decide, Int.le_refl _⟩
    | some value =>
      obtain ⟨i, hi, hvalue⟩ := List.mem_filterMap.mp (List.mem_of_getLast? hlast)
      cases i with
      | depth v =>
        cases hvalue
        exact (his _ hi).2
      | filter pattern => cases hvalue
      | path dn => cases hvalue
  exact ⟨hdepth.1, hdepth.2, rfl⟩

/-- The pattern, if there is one, is a sequence of items. -/
def Settings.Accepted (a : Settings) : Prop := ∀ s, a.pattern = some s → s ≠ [] ∧ IsItems s

/-- The test of the pattern in `main`. -/
theorem rejected_iff (h : a.Sound) :
    (a.filter = true ∧ (validatePattern a.pattern ()).value = some false) ↔ ¬ a.Accepted := by
  unfold Settings.Accepted
  rw [h.filter_iff]
  cases a.pattern with
  | none => simp
  | some s =>
    obtain ⟨b, hgives, hb⟩ : Decides (validatePattern (some s)) () (s ≠ [] ∧ IsItems s) :=
      decides_validatePattern s
    have hvalue : (validatePattern (some s) ()).value = some b := congrArg Outcome.value hgives
    rw [hvalue]
    simp only [Option.isSome_some, true_and, Option.some.injEq, forall_eq']
    rw [← hb]
    cases b <;> simp

/-- **`match` answers for every pattern that is accepted**, and the answer is whether a part of the name is
in the language of the pattern. -/
theorem patternFilter_iff (is : List Item) (name : Str) :
    patternFilter (itemsText is) name = true ↔ HasSubstring (itemsLang is) name := by
  obtain ⟨b, hgives, hb⟩ : Decides
      (matchStr (name.length + (itemsText is).length + 1) (some name) (some (itemsText is))) ()
      (HasSubstring (itemsLang is) name) := decides_match is (Nat.lt_succ_self _)
  have hvalue : (matchStr (name.length + (itemsText is).length + 1) (some name)
      (some (itemsText is)) ()).value = some b := congrArg Outcome.value hgives
  unfold patternFilter
  rw [hvalue, decide_eq_true_iff, Option.some.injEq]
  exact hb

/-! ### Whole runs -/

/-- A run with accepted arguments, once it is known how each root is reported. -/
theorem wp_main {argv : List Str} {P : Str → List Line → Prop}
    (hargs : parseArgs argv .default = (a, none)) (haccepted : a.Accepted)
    (h : ∀ dn ∈ a.roots, Reports env a.options dn (P dn)) :
    wp (main env argv) (fun code r' => ∃ parts : List (Str × List Line),
      parts.map Prod.fst = a.roots ∧ (∀ x ∈ parts, P x.1 x.2) ∧
      r'.printed = a.ignored.map Printed.warning ++ report parts ∧ code = 0) .start := by
  have hsound := sound_of_parseArgs hargs
  unfold main
  rw [hargs]
  show wp (printWarnings a.ignored >>= _) _ _
  rw [wp_bind, wp_printWarnings]
  show wp (if a.filter = true ∧ _ then _ else _) _ _
  rw [if_neg fun hreject => (rejected_iff hsound).mp hreject haccepted, wp_bind]
  apply (wp_processRoots h).mono
  rintro _ r₁ ⟨parts, hroots, hparts, hprinted, htstat⟩
  have htotal : r₁.tstat = tally (parts.flatMap Prod.snd) :=
    htstat.trans (tally_nil_summaryAdd _)
  have hlength : a.roots.length = parts.length := by
    rw [← hroots, List.length_map]
  rw [wp_bind]
  unfold printAggregateSummary Exec.when
  rw [hlength]
  refine wp.mono (Q := fun _ r' => r'.printed = a.ignored.map Printed.warning ++ report parts) ?_ ?_
  · unfold report
    split_ifs with hmany
    · rw [wp_modify]
      simp only [hprinted, htotal]
      exact List.append_assoc _ _ _
    · rw [wp_pure, List.append_nil]
      exact hprinted
  · intro _ r' hr'
    exact (wp_pure (0 : ℤ)).mpr ⟨parts, hroots, hparts, hr', rfl⟩

/-- The depth of a run is in range. -/
theorem options_max_depth (h : a.Sound) :
    1 ≤ a.options.max_depth ∧ a.options.max_depth ≤ MAX_DEPTH.toNat := by
  have hpos := h.depth_pos
  have hle := h.depth_le
  show 1 ≤ a.max_depth.toNat ∧ a.max_depth.toNat ≤ MAX_DEPTH.toNat
  omega

/-- **`dirtree` returns, whatever the file system answers**, and its output is that of a run that has gone
through: the message of `syntax`, or the one about the pattern, or a report on each root in order.  The
summary of a root is the tally of its lines, and the totals are the tally of all lines. -/
theorem main_report (env : Env) (argv : List Str) (hempty : ∀ entries, env.opendir [] ≠ .ok entries) :
    wp (main env argv) (fun code r' =>
      (∀ a e, parseArgs argv .default = (a, some e) →
        r'.printed = a.ignored.map Printed.warning ++ [.usage e] ∧ code = if e = .help then 0 else 1) ∧
      (∀ a, parseArgs argv .default = (a, none) → ¬ a.Accepted →
        r'.printed = a.ignored.map Printed.warning ++ [.invalidPattern] ∧ code = 1) ∧
      ∀ a, parseArgs argv .default = (a, none) → a.Accepted →
        ∃ parts : List (Str × List Line), parts.map Prod.fst = a.roots ∧
          (∀ x ∈ parts, BelowRoot env a.options x.1 x.2) ∧
          r'.printed = a.ignored.map Printed.warning ++ report parts ∧ code = 0) .start := by
  obtain ⟨a, error, hargs⟩ : ∃ a error, parseArgs argv .default = (a, error) := ⟨_, _, rfl⟩
  simp only [hargs, Prod.mk.injEq]
  cases error with
  | some e =>
    unfold main syntaxExit print
    rw [hargs]
    show wp (printWarnings a.ignored >>= _) _ _
    rw [wp_bind, wp_printWarnings]
    show wp (_ >>= _) _ _
    rw [wp_bind, wp_modify, wp_pure]
    refine ⟨?_, ?_, ?_⟩
    · rintro _ _ ⟨rfl, h⟩
      cases h
      exact ⟨rfl, rfl⟩
    · rintro _ ⟨_, h⟩
      cases h
    · rintro _ ⟨_, h⟩
      cases h
  | none =>
    have hsound := sound_of_parseArgs hargs
    by_cases haccepted : a.Accepted
    · have hmax := (options_max_depth hsound).2
      apply (wp_main hargs haccepted fun dn _ => reports_root hempty hmax dn).mono
      rintro code r' hr'
      refine ⟨?_, ?_, ?_⟩
      · rintro _ _ ⟨_, h⟩
        cases h
      · rintro _ ⟨rfl, _⟩ hno
        exact absurd haccepted hno
      · rintro _ ⟨rfl, _⟩ _
        exact hr'
    · unfold main print
      rw [hargs]
      show wp (printWarnings a.ignored >>= _) _ _
      rw [wp_bind, wp_printWarnings]
      show wp (if a.filter = true ∧ _ then _ else _) _ _
      rw [if_pos ((rejected_iff hsound).mpr haccepted), wp_bind, wp_modify, wp_pure]
      refine ⟨?_, ?_, ?_⟩
      · rintro _ _ ⟨_, h⟩
        cases h
      · rintro _ ⟨rfl, _⟩ _
        exact ⟨rfl, rfl⟩
      · rintro _ ⟨rfl, _⟩ hyes
        exact absurd hyes haccepted

/-! ### Roots that hold trees -/

/-- What the file system has at a root: nothing, something without an `lstat`, something that cannot be
opened as a directory, or a tree. -/
inductive Root where
  | missing
  | hidden
  | closed (errno : Errno)
  | tree (ts : List Tree)

def Root.Holds (env : Env) (dn : Str) : Root → Prop
  | missing => env.lstat dn = .error .ENOENT
  | hidden => ∃ errno, errno ≠ .ENOENT ∧ env.lstat dn = .error errno
  | closed errno => (∃ st, env.lstat dn = .ok st) ∧ env.opendir dn = .error errno
  | tree ts => (∃ st, env.lstat dn = .ok st) ∧ Shows env dn ts

/-- The lines that are printed for it. -/
def Root.lines (env : Env) (opt : Options) : Root → List Line
  | missing => [.error 0 "No such file or directory"]
  | hidden => []
  | closed .EACCES => [.error 0 "Permission denied"]
  | closed .ENOENT => [.error 0 "No such file or directory"]
  | closed .other => []
  | tree ts => listing env opt 1 (sorted ts)

section Sample

/-- The sample, whose root has an `lstat`. -/
def rootEnv : Env :=
  { sampleEnv with lstat := fun path => if path = [dot] then .ok (statOf .dir) else sampleEnv.lstat path }

/-- `-d 2 -f b . b` -/
def sampleArgs : List Str :=
  [optionDepth, [⟨50, by decide⟩], optionFilter, [letterB], [dot], [letterB]]

/-- A directory that cannot be read, and a file without an `lstat`. -/
def brokenEnv : Env where
  opendir path := if path = [dot] then .ok [⟨.dir, [letterA]⟩, ⟨.reg, [letterB]⟩] else .error .EACCES
  lstat path := if path = [dot] ∨ path = [dot, slash, letterA] then .ok (statOf .dir) else .error .EACCES
  getpwuid _ := none
  getgrgid _ := none

/-- The settings of the run `dirtree .`. -/
def plainSettings : Settings := ⟨20, false, none, [[dot]], []⟩

theorem rows_broken : rows brokenEnv plainSettings.options [dot] 1 =
    [.full ⟨[dot, slash, letterA], [letterA], 1, statOf .dir⟩,
      .message (.error 2 "Permission denied"), .message (.perror "lstat")] := by
  have hsorted : sortedEntries [⟨.dir, [letterA]⟩, ⟨.reg, [letterB]⟩]
      = [⟨.dir, [letterA]⟩, ⟨.reg, [letterB]⟩] :=
    sortedEntries_of_pairwise (by decide) (by decide)
  have hbelow : rows brokenEnv plainSettings.options [dot, slash, letterA] 2
      = [.message (.error 2 "Permission denied")] := by
    rw [rows_eq]
    rfl
  have hdir : brokenEnv.lstat (childPath [dot] (Dirent.mk .dir [letterA]).d_name) = .ok (statOf .dir) := by
    decide +kernel
  have hfile : brokenEnv.lstat (childPath [dot] (Dirent.mk .reg [letterB]).d_name) = .error .EACCES := by
    decide +kernel
  have hwalked : walked [dot] [⟨.dir, [letterA]⟩, ⟨.reg, [letterB]⟩]
      = [⟨.dir, [letterA]⟩, ⟨.reg, [letterB]⟩] := by
    decide +kernel
  rw [rows_eq]
  show (walked [dot] (sortedEntries [⟨.dir, [letterA]⟩, ⟨.reg, [letterB]⟩])).flatMap _ = _
  rw [hsorted, hwalked, List.flatMap_cons, List.flatMap_singleton, entryRows_of_ok _ hdir,
    entryRows_of_error _ hfile, headRows_of_matches (matches_of_unfiltered rfl _),
    faultRows_of_unfiltered rfl, if_pos ⟨rfl, by decide⟩]
  exact congrArg (fun rs => [_] ++ rs ++ [_]) hbelow

/-- The run `dirtree .` on the directory with the faults. -/
theorem main_report_sample :
    wp (main brokenEnv [[dot]]) (fun code r' => r'.printed = [] ++ report
      [([dot], [fullLine brokenEnv 1 [letterA] (statOf .dir), .error 2 "Permission denied",
        .perror "lstat"])] ∧ code = 0) .start := by
  have hempty : brokenEnv.opendir [] = .error .EACCES := by decide +kernel
  apply (main_report brokenEnv [[dot]] fun entries h => by rw [hempty] at h; cases h).mono
  rintro code r' ⟨-, -, haccept⟩
  have hargs : parseArgs [[dot]] .default = (plainSettings, none) := by decide +kernel
  obtain ⟨parts, hroots, hbelow, hprinted, hcode⟩ :=
    haccept plainSettings hargs fun s h => by cases h
  obtain ⟨⟨dn, ls⟩, rfl, rfl⟩ := List.map_eq_singleton_iff.mp hroots
  have hlines : ls = (rows brokenEnv plainSettings.options [dot] 1).map (Row.line brokenEnv) :=
    hbelow _ List.mem_cons_self
  rw [rows_broken] at hlines
  subst hlines
  exact ⟨hprinted, hcode⟩

end Sample

end SystemProgramming.Dirtree
