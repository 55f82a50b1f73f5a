import SystemProgramming.Dirtree.Main
import SystemProgramming.Lib.Printf

/-!
# The columns of the table

The text of the lines for entries and of the summaries.  Names are cut to their column, so that sizes and
blocks stand under their headings and those of the summary under those of the entries, unless a number is
too long for its field; and whatever their lengths, the numbers of a line can be read back.

* `entry_line_columns`: the line of an entry reads back, and when it is as wide as the heading.
* `summary_line_columns`: the summary reads back, and when it is as wide as its columns.
* `aggregate_columns`: so do the totals, which are always aligned.
-/

namespace SystemProgramming.Dirtree

/-- The text of an entry: `"%-54s  %8.8s:%-8.8s  %10llu  %8llu    %c"`. -/
def entryText (namecol user group : Str) (size blocks : UInt64) (typech : Char) : Str :=
  padRight 54 namecol ++ literal "  " ++ padLeft 8 (user.take 8) ++ literal ":"
    ++ padRight 8 (group.take 8) ++ literal "  " ++ padLeft 10 (decimal size.toNat) ++ literal "  "
    ++ padLeft 8 (decimal blocks.toNat) ++ literal "    " ++ [cchar typech]

/-- `print_formats[0]` -/
def headerText : Str := literal
  "Name                                                        User:Group           Size    Blocks Type"

/-- `pluralize` -/
def pluralize (count : UInt32) (singular plural : String) : Str :=
  literal (if count = 1 then singular else plural)

/-- The counts, as they are written to `left`. -/
def countsText (stats : Summary) : Str :=
  decimal stats.files.toNat ++ literal " file" ++ pluralize stats.files "" "s" ++ literal ", "
    ++ decimal stats.dirs.toNat ++ literal " " ++ pluralize stats.dirs "directory" "directories"
    ++ literal ", " ++ decimal stats.links.toNat ++ literal " link" ++ pluralize stats.links "" "s"
    ++ literal ", " ++ decimal stats.fifos.toNat ++ literal " pipe" ++ pluralize stats.fifos "" "s"
    ++ literal ", and " ++ decimal stats.socks.toNat ++ literal " socket" ++ pluralize stats.socks "" "s"

/-- What `print_directory_summary` leaves in `summary_col`. -/
def summaryColumn (stats : Summary) : Str := formatTruncatedLeft 69 (snprintf 256 (countsText stats)) 68

/-- The text of the summary: `"%-68s   %14llu %9llu"`. -/
def summaryText (stats : Summary) : Str :=
  padRight 68 (summaryColumn stats) ++ literal "   " ++ padLeft 14 (decimal stats.size.toNat)
    ++ literal " " ++ padLeft 9 (decimal stats.blocks.toNat)

variable {namecol user group src : Str} {size blocks : UInt64} {typech : Char} {stats : Summary}

/-! ### What is cut -/

/-- What is cut ends in three dots and fills its column. -/
theorem length_formatTruncatedLeft {dstsz width : ℕ} (hwidth : 3 < width) (hdst : width < dstsz)
    (src : Str) : (formatTruncatedLeft dstsz src width).length = min src.length width := by
  unfold formatTruncatedLeft snprintf
  split_ifs with hfits
  · rw [List.length_take]
    omega
  · simp only [List.length_take, List.length_append, List.length_cons, List.length_nil]
    omega

theorem formatTruncatedLeft_of_le {dstsz width : ℕ} (hfits : src.length ≤ width) (hdst : width < dstsz) :
    formatTruncatedLeft dstsz src width = src := by
  unfold formatTruncatedLeft snprintf
  rw [if_pos hfits, List.take_of_length_le (by omega)]

theorem length_buildDisplayName_le (name : Str) (depth : ℕ) :
    (buildDisplayName 256 name depth).length ≤ 54 := by
  unfold buildDisplayName
  simp only [length_formatTruncatedLeft (by decide : 3 < 54) (by decide : 54 < 256)]
  omega

theorem length_summaryColumn_le (stats : Summary) : (summaryColumn stats).length ≤ 68 := by
  unfold summaryColumn
  rw [length_formatTruncatedLeft (by decide) (by decide)]
  omega

theorem length_pluralize_le (count : UInt32) (singular plural : String) :
    (pluralize count singular plural).length ≤ max singular.length plural.length := by
  unfold pluralize literal
  rw [List.length_map]
  split_ifs
  · exact Nat.le_max_left _ _
  · exact Nat.le_max_right _ _

/-- The counts have at most `k` digits. -/
structure Summary.Short (k : ℕ) (stats : Summary) : Prop where
  files : stats.files.toNat < 10 ^ k
  dirs : stats.dirs.toNat < 10 ^ k
  links : stats.links.toNat < 10 ^ k
  fifos : stats.fifos.toNat < 10 ^ k
  socks : stats.socks.toNat < 10 ^ k

theorem short_ten (stats : Summary) : stats.Short 10 := by
  have hlt (n : UInt32) : n.toNat < 10 ^ 10 := by
    have hn := n.toNat_lt
    omega
  exact ⟨hlt _, hlt _, hlt _, hlt _, hlt _⟩

theorem length_literal (s : String) : (literal s).length = s.length := List.length_map _

/-- The words between the counts take at most 50 characters. -/
theorem length_countsText_le {k : ℕ} (hk : 0 < k) (h : stats.Short k) :
    (countsText stats).length ≤ 5 * k + 50 := by
  have hfiles := (length_decimal_le_iff hk).mpr h.files
  have hdirs := (length_decimal_le_iff hk).mpr h.dirs
  have hlinks := (length_decimal_le_iff hk).mpr h.links
  have hfifos := (length_decimal_le_iff hk).mpr h.fifos
  have hsocks := (length_decimal_le_iff hk).mpr h.socks
  have hs (count : UInt32) : (pluralize count "" "s").length ≤ 1 := length_pluralize_le count "" "s"
  have hword : (pluralize stats.dirs "directory" "directories").length ≤ 11 :=
    length_pluralize_le stats.dirs "directory" "directories"
  have hs₁ := hs stats.files
  have hs₂ := hs stats.links
  have hs₃ := hs stats.fifos
  have hs₄ := hs stats.socks
  unfold countsText
  simp only [List.length_append, length_literal, show " file".length = 5 from rfl,
    show ", ".length = 2 from rfl, show " ".length = 1 from rfl, show " link".length = 5 from rfl,
    show " pipe".length = 5 from rfl, show ", and ".length = 6 from rfl,
    show " socket".length = 7 from rfl]
  omega

/-- **`left` is long enough**: the counts are never cut there, whatever they are. -/
theorem snprintf_countsText (stats : Summary) : snprintf 256 (countsText stats) = countsText stats := by
  have hlen := length_countsText_le (by decide) (short_ten stats)
  unfold snprintf
  rw [List.take_of_length_le (by omega)]

/-- Counts below a thousand are not cut in the column either. -/
theorem summaryColumn_of_short (h : stats.Short 3) : summaryColumn stats = countsText stats := by
  have hlen := length_countsText_le (by decide) h
  unfold summaryColumn
  rw [snprintf_countsText, formatTruncatedLeft_of_le (by omega) (by decide)]

/-! ### Entries -/

/-- What a reader finds in the line of an entry: the columns of the name, the user and the group, the
size and the blocks, and the type. -/
structure EntryColumns where
  name : Str
  user : Str
  group : Str
  size : ℕ
  blocks : ℕ
  typech : Option CChar
  deriving DecidableEq

/-- The columns are found by their positions up to the size; the blocks are the next number and the type
is the fifth character behind it. -/
def readEntry (line : Str) : EntryColumns :=
  let size := nextNumber (line.drop 75)
  let blocks := nextNumber size.2
  { name := line.take 54
    user := (line.drop 56).take 8
    group := (line.drop 65).take 8
    size := size.1
    blocks := blocks.1
    typech := (blocks.2.drop 4).head? }

/-- The text of an entry, from its first column on. -/
theorem entryText_eq (namecol user group : Str) (size blocks : UInt64) (typech : Char) :
    entryText namecol user group size blocks typech
      = padRight 54 namecol ++ (literal "  " ++ (padLeft 8 (user.take 8) ++ (literal ":"
        ++ (padRight 8 (group.take 8) ++ (literal "  " ++ (padLeft 10 (decimal size.toNat)
        ++ (literal "  " ++ (padLeft 8 (decimal blocks.toNat)
        ++ (literal "    " ++ [cchar typech]))))))))) := by
  simp only [entryText, List.append_assoc]

/-- What stands behind a part of the text. -/
theorem drop_append_append {n k : ℕ} {xs ys zs : Str} (hxs : xs.length = n) (hys : ys.length = k) :
    (xs ++ (ys ++ zs)).drop (n + k) = zs := by
  rw [← List.append_assoc]
  apply List.drop_left'
  rw [List.length_append, hxs, hys]

theorem readEntry_entryText (hname : namecol.length ≤ 54) :
    readEntry (entryText namecol user group size blocks typech)
      = ⟨padRight 54 namecol, padLeft 8 (user.take 8), padRight 8 (group.take 8), size.toNat,
        blocks.toNat, some (cchar typech)⟩ := by
  have hname : (padRight 54 namecol).length = 54 := by
    rw [length_padRight]
    exact Nat.max_eq_left hname
  have huser : (padLeft 8 (user.take 8)).length = 8 := by
    rw [length_padLeft]
    exact Nat.max_eq_left (List.length_take_le _ _)
  have hgroup : (padRight 8 (group.take 8)).length = 8 := by
    rw [length_padRight]
    exact Nat.max_eq_left (List.length_take_le _ _)
  have hgap : (literal "  ").length = 2 := rfl
  have hcolon : (literal ":").length = 1 := rfl
  -- the text behind each of the first columns
  have h56 (zs : Str) : (padRight 54 namecol ++ (literal "  " ++ zs)).drop 56 = zs :=
    drop_append_append hname hgap
  have h65 (zs : Str) : (padRight 54 namecol ++ (literal "  " ++ (padLeft 8 (user.take 8)
      ++ (literal ":" ++ zs)))).drop 65 = zs := by
    rw [show 65 = 56 + 9 from rfl, ← List.drop_drop, h56]
    exact drop_append_append huser hcolon
  have h75 (zs : Str) : (padRight 54 namecol ++ (literal "  " ++ (padLeft 8 (user.take 8)
      ++ (literal ":" ++ (padRight 8 (group.take 8) ++ (literal "  " ++ zs)))))).drop 75 = zs := by
    rw [show 75 = 65 + 10 from rfl, ← List.drop_drop, h65]
    exact drop_append_append hgroup hgap
  have hblank : ∀ c, (literal "  " ++ (padLeft 8 (decimal blocks.toNat)
      ++ (literal "    " ++ [cchar typech]))).head? = some c → isdigit c = false := by
    intro c hc
    cases hc
    rfl
  have hblank' : ∀ c, (literal "    " ++ [cchar typech]).head? = some c → isdigit c = false := by
    intro c hc
    cases hc
    rfl
  have hsize := nextNumber_padLeft (n := size.toNat) hblank 10
  have hblocks := nextNumber_padLeft (n := blocks.toNat) hblank' 8
  have hskip : NoDigit (literal "  ") := by decide
  unfold readEntry
  rw [entryText_eq]
  simp only [h56, h65, h75, hsize, nextNumber_append hskip, hblocks, List.take_left' hname, List.take_left' huser,
    List.take_left' hgroup]
  rfl

/-- **The line of an entry reads back**: the name in its column, the user and the group, the size, the blocks
and the letter of the type; and it is as wide as the heading exactly when the size has at most ten digits and
the blocks have at most eight. -/
theorem entry_line_columns (env : Env) (name : Str) (depth : ℕ) (st : Stat) :
    let user := (env.getpwuid st.st_uid).getD [questionMark]
    let group := (env.getgrgid st.st_gid).getD [questionMark]
    let text := entryText (buildDisplayName 256 name depth) (lookupUser env st.st_uid)
      (lookupGroup env st.st_gid) st.st_size st.st_blocks (getTypeChar st)
    readEntry text = ⟨padRight 54 (nameColumn depth name), padLeft 8 (user.take 8),
      padRight 8 (group.take 8), st.st_size.toNat, st.st_blocks.toNat, some (cchar st.st_mode.letter)⟩ ∧
    (text.length = headerText.length ↔ st.st_size.toNat < 10 ^ 10 ∧ st.st_blocks.toNat < 10 ^ 8) := by
  intro user group text
  have hdisplay : (buildDisplayName 256 name depth).length ≤ 54 := length_buildDisplayName_le name depth
  have hread : readEntry text = _ := readEntry_entryText hdisplay
  rw [buildDisplayName_eq, getTypeChar_eq] at hread
  refine ⟨hread, ?_⟩
  have hlength : text.length = 82 + (padLeft 10 (decimal st.st_size.toNat)).length
      + (padLeft 8 (decimal st.st_blocks.toNat)).length := by
    show (entryText _ _ _ _ _ _).length = _
    unfold entryText
    simp only [List.length_append, length_padRight, length_literal, List.length_singleton,
      show "  ".length = 2 from rfl, show ":".length = 1 from rfl, show "    ".length = 4 from rfl,
      length_padLeft, List.length_take]
    omega
  have hheader : headerText.length = 100 := by decide +kernel
  rw [hlength, hheader, ← length_padLeft_decimal (by decide : 0 < 10),
    ← length_padLeft_decimal (by decide : 0 < 8)]
  have hsize : 10 ≤ (padLeft 10 (decimal st.st_size.toNat)).length := by
    rw [length_padLeft]
    omega
  have hblocks : 8 ≤ (padLeft 8 (decimal st.st_blocks.toNat)).length := by
    rw [length_padLeft]
    omega
  omega

/-! ### Summaries -/

theorem noDigit_pluralize {singular plural : String} (hs : NoDigit (literal singular))
    (hp : NoDigit (literal plural)) (count : UInt32) : NoDigit (pluralize count singular plural) := by
  unfold pluralize
  split_ifs
  · exact hs
  · exact hp

/-- The counts read back, whatever follows that is not a digit. -/
theorem numbers_countsText (k : ℕ) (t : Str) : numbers (k + 5) (countsText stats ++ t)
    = stats.files.toNat :: stats.dirs.toNat :: stats.links.toNat :: stats.fifos.toNat
      :: stats.socks.toNat :: numbers k t := by
  have hs := noDigit_pluralize (by decide : NoDigit (literal "")) (by decide : NoDigit (literal "s"))
  have hword := noDigit_pluralize (by decide : NoDigit (literal "directory"))
    (by decide : NoDigit (literal "directories"))
  simp only [countsText, List.append_assoc]
  rw [numbers_decimal (fun c hc => by cases hc; rfl), numbers_append (by decide),
    numbers_append (hs stats.files), numbers_append (by decide),
    numbers_decimal (fun c hc => by cases hc; rfl), numbers_append (by decide),
    numbers_append (hword stats.dirs), numbers_append (by decide),
    numbers_decimal (fun c hc => by cases hc; rfl), numbers_append (by decide),
    numbers_append (hs stats.links), numbers_append (by decide),
    numbers_decimal (fun c hc => by cases hc; rfl), numbers_append (by decide),
    numbers_append (hs stats.fifos), numbers_append (by decide),
    numbers_decimal (fun c hc => by cases hc; rfl), numbers_append (by decide),
    numbers_append (hs stats.socks)]

/-- The size and the blocks read back. -/
theorem numbers_totals (stats : Summary) : numbers 2 (literal "   " ++ (padLeft 14 (decimal stats.size.toNat)
    ++ (literal " " ++ padLeft 9 (decimal stats.blocks.toNat)))) = [stats.size.toNat, stats.blocks.toNat] := by
  rw [numbers_append (by decide), numbers_padLeft (fun c hc => by cases hc; rfl), numbers_append (by decide),
    ← List.append_nil (padLeft 9 _), numbers_padLeft (fun c hc => by cases hc)]
  rfl

/-- **The summary reads back**: behind its first column stand the size and the blocks, and if no count has
more than three digits the counts stand in front of them.  The line is as wide as the columns of its
format exactly when the size has at most 14 digits and the blocks have at most nine. -/
theorem summary_line_columns (stats : Summary) :
    numbers 2 ((summaryText stats).drop 68) = [stats.size.toNat, stats.blocks.toNat] ∧
    (stats.Short 3 → numbers 7 (summaryText stats) = [stats.files.toNat, stats.dirs.toNat,
      stats.links.toNat, stats.fifos.toNat, stats.socks.toNat, stats.size.toNat, stats.blocks.toNat]) ∧
    ((summaryText stats).length = 95 ↔ stats.size.toNat < 10 ^ 14 ∧ stats.blocks.toNat < 10 ^ 9) := by
  have hcolumn : (padRight 68 (summaryColumn stats)).length = 68 := by
    rw [length_padRight]
    exact Nat.max_eq_left (length_summaryColumn_le stats)
  have htext : summaryText stats = padRight 68 (summaryColumn stats) ++ (literal "   "
      ++ (padLeft 14 (decimal stats.size.toNat) ++ (literal " "
      ++ padLeft 9 (decimal stats.blocks.toNat)))) := by
    simp only [summaryText, List.append_assoc]
  rw [htext]
  refine ⟨?_, ?_, ?_⟩
  · rw [List.drop_left' hcolumn]
    exact numbers_totals stats
  · intro hshort
    rw [summaryColumn_of_short hshort, padRight, List.append_assoc, numbers_countsText,
      numbers_append (noDigit_replicate _), numbers_totals]
  · rw [← length_padLeft_decimal (by decide : 0 < 14), ← length_padLeft_decimal (by decide : 0 < 9)]
    have hsize : 14 ≤ (padLeft 14 (decimal stats.size.toNat)).length := by
      rw [length_padLeft]
      omega
    have hblocks : 9 ≤ (padLeft 9 (decimal stats.blocks.toNat)).length := by
      rw [length_padLeft]
      omega
    simp only [List.length_append, hcolumn, length_literal, show "   ".length = 3 from rfl,
      show " ".length = 1 from rfl]
    omega

/-! ### The totals -/

/-- A line of `print_aggregate_summary`. -/
def totalText (label : String) (width n : ℕ) : Str := literal label ++ padLeft width (decimal n)

/-- The text of `print_aggregate_summary`, line by line. -/
def aggregateText (total : Summary) (ndir : ℕ) : List Str :=
  (literal "Analyzed " ++ (decimal ndir ++ literal " directories:")) ::
  [ totalText "  total # of files:" 24 total.files.toNat,
    totalText "  total # of directories:" 18 total.dirs.toNat,
    totalText "  total # of links:" 24 total.links.toNat,
    totalText "  total # of pipes:" 24 total.fifos.toNat,
    totalText "  total # of sockets:" 22 total.socks.toNat,
    totalText "  total # of entries:" 22
      (total.files + total.dirs + total.links + total.fifos + total.socks).toNat,
    totalText "  total file size:" 25 total.size.toNat,
    totalText "  total # of blocks:" 23 total.blocks.toNat ]

theorem numbers_totalText {label : String} (h : NoDigit (literal label)) (width n : ℕ) :
    numbers 1 (totalText label width n) = [n] := by
  rw [totalText, numbers_append h, ← List.append_nil (padLeft width _),
    numbers_padLeft (fun c hc => by cases hc)]
  rfl

theorem length_totalText {label : String} {width n : ℕ} (hlabel : label.length + width = 43)
    (hwidth : 0 < width) (h : n < 10 ^ width) : (totalText label width n).length = 43 := by
  rw [totalText, List.length_append, length_literal, (length_padLeft_decimal hwidth).mpr h, hlabel]

/-- **The totals are aligned and read back**: every line is 43 characters wide, whatever the totals are, and
the number of entries is the sum of the counts as an `unsigned int`. -/
theorem aggregate_columns (total : Summary) (ndir : ℕ) :
    (∀ line ∈ (aggregateText total ndir).tail, line.length = 43) ∧
    (aggregateText total ndir).flatMap (numbers 1) = [ndir, total.files.toNat, total.dirs.toNat,
      total.links.toNat, total.fifos.toNat, total.socks.toNat,
      (total.files.toNat + total.dirs.toNat + total.links.toNat + total.fifos.toNat
        + total.socks.toNat) % 2 ^ 32, total.size.toNat, total.blocks.toNat] := by
  constructor
  · have hcount (n : UInt32) {width : ℕ} (hwidth : 10 ≤ width) : n.toNat < 10 ^ width :=
      Nat.lt_of_lt_of_le n.toNat_lt
        (Nat.le_trans (by decide : 2 ^ 32 ≤ 10 ^ 10) (Nat.pow_le_pow_right (by decide) hwidth))
    have hsum (n : UInt64) {width : ℕ} (hwidth : 20 ≤ width) : n.toNat < 10 ^ width :=
      Nat.lt_of_lt_of_le n.toNat_lt
        (Nat.le_trans (by decide : 2 ^ 64 ≤ 10 ^ 20) (Nat.pow_le_pow_right (by decide) hwidth))
    simp only [aggregateText, List.tail_cons, List.forall_mem_cons]
    refine ⟨?_, ?_, ?_, ?_, ?_, ?_, ?_, ?_, List.forall_mem_nil _⟩
    · exact length_totalText rfl (by decide) (hcount total.files (by decide))
    · exact length_totalText rfl (by decide) (hcount total.dirs (by decide))
    · exact length_totalText rfl (by decide) (hcount total.links (by decide))
    · exact length_totalText rfl (by decide) (hcount total.fifos (by decide))
    · exact length_totalText rfl (by decide) (hcount total.socks (by decide))
    · exact length_totalText rfl (by decide) (hcount _ (by decide))
    · exact length_totalText rfl (by decide) (hsum total.size (by decide))
    · exact length_totalText rfl (by decide) (hsum total.blocks (by decide))
  · have hfirst : numbers 1 (literal "Analyzed " ++ (decimal ndir ++ literal " directories:"))
        = [ndir] := by
      rw [numbers_append (by decide), numbers_decimal (fun c hc => by cases hc; rfl)]
      rfl
    simp only [aggregateText, List.flatMap_cons, List.flatMap_nil, hfirst]
    rw [numbers_totalText (by decide), numbers_totalText (by decide), numbers_totalText (by decide),
      numbers_totalText (by decide), numbers_totalText (by decide), numbers_totalText (by decide),
      numbers_totalText (by decide), numbers_totalText (by decide)]
    simp only [UInt32.toNat_add, Nat.mod_add_mod]
    rfl

end SystemProgramming.Dirtree
