import SystemProgramming.Dirtree.Faults

/-!
# The summary is the tally of the lines

Whatever the file system answers, and with or without a filter, `process_dir` returns, and what it has
added to `*stats` is what a reader would count in the lines that it has printed for entries: their
numbers by type, the sum of their sizes and that of their blocks.  An entry without an `lstat`, an
unreadable directory or a path that is too long leaves no trace in either.

* `tallies_processDir`: the summary of a listing is the tally of its lines.
-/

namespace SystemProgramming.Dirtree

open Exec

variable {env : Env} {opt : Options} {depth : ℕ} {dn : Str} {o : Out} {α β : Type}

/-! ### The tally of some lines -/

/-- The line of an entry of the type `typech`. -/
def Line.hasType (typech : Char) : Line → Bool
  | .entry _ _ _ _ _ c => c = typech
  | _ => false

/-- The size in the line of an entry. -/
def Line.size : Line → UInt64
  | .entry _ _ _ size _ _ => size
  | _ => 0

/-- The blocks in the line of an entry. -/
def Line.blocks : Line → UInt64
  | .entry _ _ _ _ blocks _ => blocks
  | _ => 0

/-- What a reader counts in some lines. -/
def tally (ls : List Line) : Summary where
  dirs := UInt32.ofNat (ls.countP (Line.hasType 'd'))
  files := UInt32.ofNat (ls.countP (Line.hasType ' '))
  links := UInt32.ofNat (ls.countP (Line.hasType 'l'))
  fifos := UInt32.ofNat (ls.countP (Line.hasType 'f'))
  socks := UInt32.ofNat (ls.countP (Line.hasType 's'))
  size := (ls.map Line.size).sum
  blocks := (ls.map Line.blocks).sum

theorem tally_append (xs ys : List Line) : tally (xs ++ ys) = summaryAdd (tally xs) (tally ys) := by
  simp only [tally, summaryAdd, List.countP_append, List.map_append, List.sum_append, UInt32.ofNat_add]

/-- An entry is counted as its line says. -/
theorem tally_entryLine (env : Env) (namecol : Str) (st : Stat) :
    tally [entryLine env namecol st] = summaryOf [st] := by
  unfold entryLine
  rw [getTypeChar_eq]
  cases st with
  | mk mode uid gid size blocks => cases mode <;> rfl

theorem summaryAdd_assoc (s t u : Summary) :
    summaryAdd (summaryAdd s t) u = summaryAdd s (summaryAdd t u) := by
  simp only [summaryAdd, UInt32.add_assoc, UInt64.add_assoc]

theorem summaryAdd_tally_nil (s : Summary) : summaryAdd s (tally []) = s := by
  cases s
  simp [summaryAdd, tally]

/-! ### Functions that count what they print -/

/-- `m` returns, and adds to the summary what it prints. -/
def Tallies (m : Exec Out α) : Prop :=
  ∀ o, wp m (fun _ o' => ∃ ls, o'.lines = o.lines ++ ls ∧
    o'.stats = summaryAdd o.stats (tally ls)) o

theorem tallies_pure (a : α) : Tallies (pure a : Exec Out α) := by
  intro o
  rw [wp_pure]
  exact ⟨[], (List.append_nil _).symm, (summaryAdd_tally_nil _).symm⟩

theorem Tallies.bind {m : Exec Out α} {f : α → Exec Out β} (hm : Tallies m)
    (hf : ∀ a, Tallies (f a)) : Tallies (m >>= f) := by
  intro o
  rw [wp_bind]
  apply (hm o).mono
  rintro a o' ⟨ls, hlines, hstats⟩
  apply (hf a o').mono
  rintro _ o'' ⟨ls', hlines', hstats'⟩
  refine ⟨ls ++ ls', ?_, ?_⟩
  · rw [hlines', hlines, List.append_assoc]
  · rw [hstats', hstats, summaryAdd_assoc, tally_append]

theorem Tallies.when {c : Prop} [Decidable c] {m : Exec Out Unit} (hm : c → Tallies m) :
    Tallies (Exec.when c m) := by
  unfold Exec.when
  split_ifs with hc
  · exact hm hc
  · exact tallies_pure ()

theorem Tallies.ite {c : Prop} [Decidable c] {m m' : Exec Out α} (hm : c → Tallies m)
    (hm' : ¬ c → Tallies m') : Tallies (if c then m else m') := by
  split_ifs with hc
  · exact hm hc
  · exact hm' hc

/-- A look at the file system, which leaves the output as it is. -/
theorem Tallies.after {m : Exec Out α} {f : α → Exec Out β} (hm : ∀ o, ∃ a, Gives m o a)
    (hf : ∀ a, Tallies (f a)) : Tallies (m >>= f) := by
  intro o
  obtain ⟨a, ha⟩ := hm o
  rw [wp_bind, ha.wp_iff]
  exact hf a o

/-! ### The loops -/

/-- A line that is none of an entry. -/
theorem tallies_printLine {l : Line} (h : tally [l] = tally []) : Tallies (printLine l) := by
  intro o
  rw [wp_printLine]
  refine ⟨[l], rfl, ?_⟩
  rw [h]
  rfl

/-- An entry is counted and printed. -/
theorem Tallies.countEntry {m : Exec Out α} (hm : Tallies m) (env : Env) (namecol : Str) (st : Stat) :
    Tallies (do countEntry st; printLine (entryLine env namecol st); m) := by
  intro o
  rw [wp_bind, wp_countEntry, wp_bind, wp_printLine, Out.extend_extend]
  apply (hm _).mono
  rintro _ o' ⟨ls, hlines, hstats⟩
  refine ⟨entryLine env namecol st :: ls, ?_, ?_⟩
  · rw [hlines]
    exact List.append_assoc _ _ _
  · have hcons : tally (entryLine env namecol st :: ls) = summaryAdd (summaryOf [st]) (tally ls) := by
      rw [← tally_entryLine env namecol st, ← tally_append]
      rfl
    rw [hstats, hcons, ← summaryAdd_assoc]
    rfl

/-- An entry is printed and counted. -/
theorem tallies_printEntry (env : Env) (namecol : Str) (st : Stat) :
    Tallies (do printLine (entryLine env namecol st); countEntry st) := by
  intro o
  rw [wp_bind, wp_printLine, wp_countEntry, Out.extend_extend]
  refine ⟨[entryLine env namecol st], rfl, ?_⟩
  rw [tally_entryLine]
  rfl

theorem tallies_printPermissionDeniedLine (depth : ℕ) : Tallies (printPermissionDeniedLine depth) :=
  tallies_printLine rfl

theorem tallies_printMissingPathLine : Tallies printMissingPathLine := tallies_printLine rfl

/-- An entry is looked at by its path. -/
theorem Tallies.atPath {e : Dirent} {f : Option Str → Exec Out α} (h : dn ≠ [])
    (hnone : Tallies (f none)) (hsome : Tallies (f (some (childPath dn e.d_name)))) :
    Tallies (makeChildPath dn e.d_name >>= f) := by
  intro o
  rw [wp_bind, (gives_makeChildPath_fits h e o).wp_iff]
  split_ifs
  · exact hsome o
  · exact hnone o

/-- The loop without a filter. -/
theorem tallies_listEntries {descend : Str → Exec Out ℤ} (h : dn ≠ [])
    (hdescend : depth < opt.max_depth → ∀ path, Tallies (descend path)) (es : List Dirent) :
    Tallies (listEntries env opt descend dn depth es) := by
  induction es with
  | nil => exact tallies_pure 1
  | cons e es ih =>
    unfold listEntries
    apply Tallies.atPath h
    · exact tallies_pure (-1)
    · cases hst : env.lstat (childPath dn e.d_name) with
      | error errno =>
        simp only [hst]
        exact (tallies_printLine rfl).bind fun _ => ih
      | ok st =>
        simp only [hst]
        refine Tallies.countEntry ?_ env _ st
        refine Tallies.bind ?_ fun _ => ih
        apply Tallies.when
        exact fun hd => (hdescend hd.2 _).bind fun _ => tallies_pure ()

/-- The loop with a filter. -/
theorem tallies_filterEntries {has_match : Str → Exec Out Bool} {descend : Str → Exec Out ℤ}
    (h : dn ≠ [])
    (hsearch : depth < opt.max_depth → ∀ path, path ≠ [] → ∀ o, ∃ b, Gives (has_match path) o b)
    (hdescend : depth < opt.max_depth → ∀ path, Tallies (descend path)) (any_match : ℤ)
    (es : List Dirent) :
    Tallies (filterEntries env opt has_match descend dn depth any_match es) := by
  induction es generalizing any_match with
  | nil => exact tallies_pure any_match
  | cons e es ih =>
    have hpath := childPath_ne_nil h e.d_name
    unfold filterEntries
    apply Tallies.atPath h
    · exact tallies_pure (-1)
    · cases hst : env.lstat (childPath dn e.d_name) with
      | error errno =>
        simp only [hst]
        refine Tallies.bind ?_ fun _ => ih any_match
        exact Tallies.when fun _ => tallies_printPermissionDeniedLine depth
      | ok st =>
        simp only [hst]
        apply Tallies.ite
        · intro _
          -- the directory, once the look-ahead has answered
          have hrest (b : Bool) : Tallies (do
              when ((entryMatchesFilter opt e.d_name || b) = true) (do
                if entryMatchesFilter opt e.d_name then
                  printLine (entryLine env (buildDisplayName 256 e.d_name depth) st)
                  countEntry st
                else printLine (.name (buildDisplayName 256 e.d_name depth)))
              when (depth < opt.max_depth) (do let _ ← descend (childPath dn e.d_name))
              filterEntries env opt has_match descend dn depth
                (if (entryMatchesFilter opt e.d_name || b) = true then 1 else any_match) es) := by
            refine Tallies.bind ?_ fun _ => Tallies.bind ?_ fun _ => ih _
            · apply Tallies.when
              exact fun _ => Tallies.ite (fun _ => tallies_printEntry env _ st)
                fun _ => tallies_printLine rfl
            · apply Tallies.when
              exact fun hlt => (hdescend hlt _).bind fun _ => tallies_pure ()
          apply Tallies.ite
          · exact fun hask => Tallies.after (hsearch hask.2 _ hpath) hrest
          · exact fun _ => Tallies.after (fun _ => ⟨false, gives_pure false⟩) hrest
        · intro _
          refine Tallies.bind ?_ fun _ => ih _
          exact Tallies.when fun _ => tallies_printEntry env _ st

/-- **The summary is the tally of the lines**, whatever the file system answers. -/
theorem tallies_processDir {fuel : ℕ} (hempty : ∀ entries, env.opendir [] ≠ .ok entries)
    (hpos : 0 < fuel) (hfuel : opt.max_depth < fuel + depth) :
    Tallies (processDir env opt fuel dn depth) := by
  induction fuel generalizing dn depth with
  | zero => cases hpos
  | succ fuel ih =>
    unfold processDir
    cases hopen : env.opendir dn with
    | error errno =>
      refine (Tallies.when fun _ => tallies_printPermissionDeniedLine depth).bind fun _ => ?_
      exact (Tallies.when fun _ => tallies_printMissingPathLine).bind fun _ => tallies_pure (0 : ℤ)
    | ok entries =>
      have hdn : dn ≠ [] := by
        rintro rfl
        exact hempty entries hopen
      cases hfilter : opt.filter with
      | none =>
        exact tallies_listEntries hdn (fun hlt path => ih (by omega) (by omega)) _
      | some p =>
        apply tallies_filterEntries hdn
        · intro hlt path hpath o
          have hdecides : Decides (subtreeHasMatch env opt fuel path (depth + 1)) o
              (FoundBelow env opt path (depth + 1)) :=
            decides_subtreeHasMatch_found hpath hlt (by omega)
          obtain ⟨b, hb, -⟩ := hdecides
          exact ⟨b, hb⟩
        · intro hlt path
          exact ih (by omega) (by omega)

end SystemProgramming.Dirtree
