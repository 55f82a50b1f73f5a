import SystemProgramming.Lib.Strtol
import Mathlib.Data.List.Induction

/-!
# The command line of `dirtree`

The loop over the arguments, which either collects the settings or ends the program in `syntax`.  An
argument list is accepted exactly when it is a sequence of well-formed options and paths; the last depth and
the last pattern count, and the first 64 paths are kept in their order.  Otherwise `syntax` is called
for the first place where the sequence breaks (`command_line_exact`).

* `command_line_exact`: which command lines are accepted, with which settings, and why the others are not.
-/

namespace SystemProgramming.Dirtree

/-- `'-'` -/
def dash : CChar := ⟨45, by decide⟩

/-- `"-d"` -/
def optionDepth : Str := [dash, ⟨100, by decide⟩]

/-- `"-f"` -/
def optionFilter : Str := [dash, ⟨102, by decide⟩]

/-- `"-h"` -/
def optionHelp : Str := [dash, ⟨104, by decide⟩]

def MAX_DIR : ℕ := 64

def MAX_DEPTH : ℤ := 20

/-- Why `syntax` is called. -/
inductive SyntaxError where
  | invalidDepth (value : Str)
  | missingDepth
  | missingPattern
  | help
  | unrecognized (option : Str)
  deriving DecidableEq

/-- What the loop over the arguments sets.  `filter` is the flag `F_Filter`; `ignored` are the paths
that it warns about. -/
structure Settings where
  max_depth : ℤ
  filter : Bool
  pattern : Option Str
  directories : List Str
  ignored : List Str
  deriving DecidableEq

/-- The settings before the first argument. -/
def Settings.default : Settings := ⟨MAX_DEPTH, false, none, [], []⟩

/-- `max_depth = atoi(argv[i])` -/
def Settings.setDepth (a : Settings) (value : Str) : Settings := { a with max_depth := atoi value }

/-- `flags |= F_Filter; pattern = argv[i];` -/
def Settings.setPattern (a : Settings) (pattern : Str) : Settings :=
  { a with filter := true, pattern := some pattern }

/-- `directories[ndir++] = argv[i]`, or a warning when there is no room. -/
def Settings.addPath (a : Settings) (path : Str) : Settings :=
  if a.directories.length < MAX_DIR then { a with directories := a.directories ++ [path] }
  else { a with ignored := a.ignored ++ [path] }

/-- The loop over the arguments: the settings so far, and why `syntax` is called if it is. -/
def parseArgs : List Str → Settings → Settings × Option SyntaxError
  | [], a => (a, none)
  | arg :: argv, a =>
    if arg.head? = some dash then
      if strcmp arg optionDepth = 0 then
        match argv with
        | value :: argv =>
          if value.head? ≠ some dash then
            if atoi value < 1 ∨ atoi value > MAX_DEPTH then
              (a.setDepth value, some (.invalidDepth value))
            else parseArgs argv (a.setDepth value)
          else (a, some .missingDepth)
        | [] => (a, some .missingDepth)
      else if strcmp arg optionFilter = 0 then
        match argv with
        | pattern :: argv =>
          if pattern.head? ≠ some dash then parseArgs argv (a.setPattern pattern)
          else (a, some .missingPattern)
        | [] => (a, some .missingPattern)
      else if strcmp arg optionHelp = 0 then (a, some .help)
      else (a, some (.unrecognized arg))
    else parseArgs argv (a.addPath arg)

/-! ### The grammar of the arguments -/

/-- An option with its value, or a path. -/
inductive Argument where
  | depth (value : Str)
  | filter (pattern : Str)
  | path (dn : Str)

/-- The words that it is written as. -/
def Argument.words : Argument → List Str
  | .depth value => [optionDepth, value]
  | .filter pattern => [optionFilter, pattern]
  | .path dn => [dn]

/-- The line of arguments that a sequence is written as. -/
def commandLine (is : List Argument) : List Str := is.flatMap Argument.words

/-- What is asked of each: nothing begins with a dash, and a depth is in range. -/
def Argument.Ok : Argument → Prop
  | .depth value => value.head? ≠ some dash ∧ 1 ≤ atoi value ∧ atoi value ≤ MAX_DEPTH
  | .filter pattern => pattern.head? ≠ some dash
  | .path dn => dn.head? ≠ some dash

/-- The arguments do not go on with a well-formed one, and the error says why. -/
inductive Breaks : SyntaxError → List Str → Prop where
  | help (rest : List Str) : Breaks .help (optionHelp :: rest)
  | depthEnds : Breaks .missingDepth [optionDepth]
  | depthDash {value : Str} (rest : List Str) (h : value.head? = some dash) :
      Breaks .missingDepth (optionDepth :: value :: rest)
  | depthRange {value : Str} (rest : List Str) (h : value.head? ≠ some dash)
      (hrange : ¬ (1 ≤ atoi value ∧ atoi value ≤ MAX_DEPTH)) :
      Breaks (.invalidDepth value) (optionDepth :: value :: rest)
  | patternEnds : Breaks .missingPattern [optionFilter]
  | patternDash {pattern : Str} (rest : List Str) (h : pattern.head? = some dash) :
      Breaks .missingPattern (optionFilter :: pattern :: rest)
  | unrecognized {option : Str} (rest : List Str) (h : option.head? = some dash)
      (hd : option ≠ optionDepth) (hf : option ≠ optionFilter) (hh : option ≠ optionHelp) :
      Breaks (.unrecognized option) (option :: rest)

/-- What one argument changes. -/
def Settings.take (a : Settings) : Argument → Settings
  | .depth value => a.setDepth value
  | .filter pattern => a.setPattern pattern
  | .path dn => a.addPath dn

variable {is : List Argument} {i : Argument} {argv rest : List Str} {a : Settings} {e : SyntaxError}

/-! ### The loop reads the grammar -/

theorem head_optionDepth : optionDepth.head? = some dash := rfl

theorem head_optionFilter : optionFilter.head? = some dash := rfl

theorem parseArgs_depth {value : Str} (h : value.head? ≠ some dash) :
    parseArgs (optionDepth :: value :: rest) a
      = if atoi value < 1 ∨ atoi value > MAX_DEPTH then
          (a.setDepth value, some (.invalidDepth value))
        else parseArgs rest (a.setDepth value) := by
  rw [parseArgs, if_pos head_optionDepth, if_pos (strcmp_eq_zero.mpr rfl)]
  exact if_pos h

theorem parseArgs_filter {pattern : Str} (h : pattern.head? ≠ some dash) :
    parseArgs (optionFilter :: pattern :: rest) a = parseArgs rest (a.setPattern pattern) := by
  rw [parseArgs, if_pos head_optionFilter, if_neg (by decide), if_pos (strcmp_eq_zero.mpr rfl)]
  exact if_pos h

theorem parseArgs_path {dn : Str} (h : dn.head? ≠ some dash) :
    parseArgs (dn :: rest) a = parseArgs rest (a.addPath dn) := by
  rw [parseArgs.eq_def]
  exact if_neg h

/-- An option that is neither `-d` nor `-f`. -/
theorem parseArgs_other {option : Str} (h : option.head? = some dash) (hd : option ≠ optionDepth)
    (hf : option ≠ optionFilter) :
    parseArgs (option :: rest) a
      = if strcmp option optionHelp = 0 then (a, some .help)
        else (a, some (.unrecognized option)) := by
  rw [parseArgs.eq_def]
  show (if option.head? = some dash then _ else _) = _
  rw [if_pos h, if_neg (mt strcmp_eq_zero.mp hd), if_neg (mt strcmp_eq_zero.mp hf)]

/-- A well-formed argument is read, and the loop goes on behind it. -/
theorem parseArgs_ok (h : i.Ok) : parseArgs (i.words ++ rest) a = parseArgs rest (a.take i) := by
  cases i with
  | depth value =>
    obtain ⟨hdash, h₁, h₂⟩ := h
    show parseArgs (optionDepth :: value :: rest) a = _
    rw [parseArgs_depth hdash, if_neg (by omega)]
    rfl
  | filter pattern => exact parseArgs_filter h
  | path dn => exact parseArgs_path h

theorem parseArgs_append (h : ∀ i ∈ is, i.Ok) :
    parseArgs (commandLine is ++ rest) a = parseArgs rest (is.foldl Settings.take a) := by
  induction is generalizing a with
  | nil => rfl
  | cons i is ih =>
    show parseArgs ((i.words ++ commandLine is) ++ rest) a = _
    rw [List.append_assoc, parseArgs_ok (h i List.mem_cons_self)]
    exact ih fun j hj => h j (List.mem_cons_of_mem i hj)

/-- The loop ends where the sequence breaks. -/
theorem parseArgs_breaks (h : Breaks e rest) : (parseArgs rest a).2 = some e := by
  cases h with
  | help rest => rw [parseArgs_other rfl (by decide) (by decide), if_pos (strcmp_eq_zero.mpr rfl)]
  | depthEnds => rfl
  | depthDash rest h =>
    rw [parseArgs, if_pos head_optionDepth, if_pos (strcmp_eq_zero.mpr rfl)]
    exact congrArg Prod.snd (if_neg (not_not.mpr h))
  | depthRange rest h hrange =>
    rw [parseArgs_depth h, if_pos (by omega)]
  | patternEnds => rfl
  | patternDash rest h =>
    rw [parseArgs, if_pos head_optionFilter, if_neg (by decide), if_pos (strcmp_eq_zero.mpr rfl)]
    exact congrArg Prod.snd (if_neg (not_not.mpr h))
  | unrecognized rest h hd hf hh =>
    rw [parseArgs_other h hd hf, if_neg (mt strcmp_eq_zero.mp hh)]

/-- Every line of arguments begins with a well-formed argument, or ends or breaks at once. -/
theorem first_cases (argv : List Str) :
    argv = [] ∨ (∃ i rest, Argument.Ok i ∧ argv = i.words ++ rest) ∨ ∃ e, Breaks e argv := by
  cases argv with
  | nil => exact Or.inl rfl
  | cons arg argv =>
    right
    by_cases hdash : arg.head? = some dash
    · by_cases hd : arg = optionDepth
      · subst hd
        cases argv with
        | nil => exact Or.inr ⟨_, .depthEnds⟩
        | cons value argv =>
          by_cases hv : value.head? = some dash
          · exact Or.inr ⟨_, .depthDash argv hv⟩
          · by_cases hrange : 1 ≤ atoi value ∧ atoi value ≤ MAX_DEPTH
            · exact Or.inl ⟨.depth value, argv, ⟨hv, hrange⟩, rfl⟩
            · exact Or.inr ⟨_, .depthRange argv hv hrange⟩
      · by_cases hf : arg = optionFilter
        · subst hf
          cases argv with
          | nil => exact Or.inr ⟨_, .patternEnds⟩
          | cons pattern argv =>
            by_cases hp : pattern.head? = some dash
            · exact Or.inr ⟨_, .patternDash argv hp⟩
            · exact Or.inl ⟨.filter pattern, argv, hp, rfl⟩
        · by_cases hh : arg = optionHelp
          · subst hh
            exact Or.inr ⟨_, .help argv⟩
          · exact Or.inr ⟨_, .unrecognized argv hdash hd hf hh⟩
    · exact Or.inl ⟨.path arg, argv, hdash, rfl⟩

/-- Every line of arguments is a well-formed sequence, and what is behind it, if anything, breaks. -/
theorem commandLine_cases (argv : List Str) : ∃ is : List Argument, (∀ i ∈ is, i.Ok) ∧
    (argv = commandLine is ∨ ∃ e rest, argv = commandLine is ++ rest ∧ Breaks e rest) := by
  induction hn : argv.length using Nat.strongRecOn generalizing argv with
  | _ n ih =>
    obtain rfl | ⟨i, rest, hi, rfl⟩ | ⟨e, he⟩ := first_cases argv
    · exact ⟨[], List.forall_mem_nil _, Or.inl rfl⟩
    · have hlt : rest.length < n := by
        rw [← hn, List.length_append]
        cases i <;> simp [Argument.words]
      obtain ⟨is, his, hrest⟩ := ih rest.length hlt rest rfl
      refine ⟨i :: is, ?_, ?_⟩
      · intro j hj
        obtain rfl | hj := List.mem_cons.mp hj
        · exact hi
        · exact his j hj
      · obtain rfl | ⟨e, rest', rfl, he⟩ := hrest
        · exact Or.inl rfl
        · refine Or.inr ⟨e, rest', ?_, he⟩
          show _ = (i.words ++ commandLine is) ++ rest'
          rw [List.append_assoc]
    · exact ⟨[], List.forall_mem_nil _, Or.inr ⟨e, argv, rfl, he⟩⟩

/-! ### What the settings are -/

def Argument.depth? : Argument → Option Str
  | .depth value => some value
  | _ => none

def Argument.filter? : Argument → Option Str
  | .filter pattern => some pattern
  | _ => none

def Argument.path? : Argument → Option Str
  | .path dn => some dn
  | _ => none

/-- The settings that a sequence of arguments stands for. -/
def settingsOf (is : List Argument) : Settings where
  max_depth := ((is.filterMap Argument.depth?).getLast?.map atoi).getD MAX_DEPTH
  filter := (is.filterMap Argument.filter?).getLast?.isSome
  pattern := (is.filterMap Argument.filter?).getLast?
  directories := (is.filterMap Argument.path?).take MAX_DIR
  ignored := (is.filterMap Argument.path?).drop MAX_DIR

theorem settingsOf_append (is : List Argument) (i : Argument) :
    settingsOf (is ++ [i]) = (settingsOf is).take i := by
  cases i with
  | depth value =>
    simp only [settingsOf, Settings.take, Settings.setDepth, List.filterMap_append,
      show [Argument.depth value].filterMap Argument.depth? = [value] from rfl,
      show [Argument.depth value].filterMap Argument.filter? = [] from rfl,
      show [Argument.depth value].filterMap Argument.path? = [] from rfl, List.append_nil,
      List.getLast?_concat]
    rfl
  | filter pattern =>
    simp only [settingsOf, Settings.take, Settings.setPattern, List.filterMap_append,
      show [Argument.filter pattern].filterMap Argument.depth? = [] from rfl,
      show [Argument.filter pattern].filterMap Argument.filter? = [pattern] from rfl,
      show [Argument.filter pattern].filterMap Argument.path? = [] from rfl, List.append_nil,
      List.getLast?_concat]
    rfl
  | path dn =>
    have hsnoc : settingsOf (is ++ [.path dn]) = { settingsOf is with
        directories := (is.filterMap Argument.path? ++ [dn]).take MAX_DIR
        ignored := (is.filterMap Argument.path? ++ [dn]).drop MAX_DIR } := by
      simp only [settingsOf, List.filterMap_append,
        show [Argument.path dn].filterMap Argument.depth? = [] from rfl,
        show [Argument.path dn].filterMap Argument.filter? = [] from rfl,
        show [Argument.path dn].filterMap Argument.path? = [dn] from rfl, List.append_nil]
    have hlen : (settingsOf is).directories.length = min MAX_DIR (is.filterMap Argument.path?).length :=
      List.length_take
    rw [hsnoc]
    show _ = (settingsOf is).addPath dn
    unfold Settings.addPath
    by_cases hroom : (is.filterMap Argument.path?).length < MAX_DIR
    · have hfits : (is.filterMap Argument.path? ++ [dn]).length ≤ MAX_DIR := by
        rw [List.length_append, List.length_singleton]
        omega
      rw [if_pos (by omega), List.take_of_length_le hfits, List.drop_eq_nil_of_le hfits]
      simp only [settingsOf, List.take_of_length_le (Nat.le_of_lt hroom),
        List.drop_eq_nil_of_le (Nat.le_of_lt hroom)]
    · have hfull : MAX_DIR ≤ (is.filterMap Argument.path?).length := Nat.not_lt.mp hroom
      rw [if_neg (by omega), List.take_append_of_le_length hfull,
        List.drop_append_of_le_length hfull]
      rfl

theorem foldl_take (is : List Argument) : is.foldl Settings.take .default = settingsOf is := by
  induction is using List.reverseRecOn with
  | nil => rfl
  | append_singleton is i ih => rw [List.foldl_append, ih, settingsOf_append]; rfl

/-- **The command line is read exactly.**  The loop accepts the well-formed sequences of arguments and
no other, with the settings they stand for, and otherwise ends in `syntax` for the reason for which
what follows a well-formed sequence breaks. -/
theorem command_line_exact (argv : List Str) :
    (∀ a, parseArgs argv .default = (a, none) ↔
      ∃ is : List Argument, (∀ i ∈ is, i.Ok) ∧ argv = commandLine is ∧ a = settingsOf is) ∧
    ∀ e, (parseArgs argv .default).2 = some e ↔
      ∃ (is : List Argument) (rest : List Str), (∀ i ∈ is, i.Ok) ∧ argv = commandLine is ++ rest ∧
        Breaks e rest := by
  have haccept : ∀ is : List Argument, (∀ i ∈ is, i.Ok) →
      parseArgs (commandLine is) .default = (settingsOf is, none) := by
    intro is his
    have hall : parseArgs (commandLine is ++ []) .default = _ := parseArgs_append his
    rwa [List.append_nil, foldl_take] at hall
  have hreject : ∀ (is : List Argument) (rest : List Str) (e : SyntaxError), (∀ i ∈ is, i.Ok) →
      Breaks e rest → (parseArgs (commandLine is ++ rest) .default).2 = some e := by
    intro is rest e his he
    rw [parseArgs_append his]
    exact parseArgs_breaks he
  obtain ⟨is, his, hargv⟩ := commandLine_cases argv
  constructor
  · intro a
    constructor
    · intro h
      obtain rfl | ⟨e, rest, rfl, he⟩ := hargv
      · rw [haccept is his] at h
        exact ⟨is, his, rfl, (congrArg Prod.fst h).symm⟩
      · have hsome := hreject is rest e his he
        rw [h] at hsome
        cases hsome
    · rintro ⟨is', his', rfl, rfl⟩
      exact haccept is' his'
  · intro e
    constructor
    · intro h
      obtain rfl | ⟨e', rest, rfl, he⟩ := hargv
      · rw [haccept is his] at h
        cases h
      · rw [hreject is rest e' his he] at h
        cases h
        exact ⟨is, rest, his, rfl, he⟩
    · rintro ⟨is', rest, his', rfl, he⟩
      exact hreject is' rest e his' he

end SystemProgramming.Dirtree
