import SystemProgramming.Decomment.Output

/-!
# Comments

A comment is opened in code by `/*` and lasts as long as no `*/` follows (`OpenedAt`); the lexer is inside
one exactly then.  The program prints one space for it, and for a comment to the end of the line two.  At
the end of file it reports a comment that is still open, but ends with `EXIT_SUCCESS` all the same.

* `inBlock_lex`: the lexer is inside a comment exactly when one is open.
* `line_com_eq`: the line that is reported is the one on which the program sees the comment open.
* `unterminated_reported`: when a comment that is still open is reported, and `unterminated_reported_fails`,
  a text for which it is not.
* `comment_styles`: the two styles are never replaced alike.
-/

namespace SystemProgramming.Decomment

open CInt

variable {d : Dialect} {s u b : List UInt8} {k : Context} {x : UInt8} {v : Vars} {c : UInt8}

/-- No `*/` stands in `b`. -/
def Unclosed (b : List UInt8) : Prop := ¬ List.IsInfix [star, slash] b

/-- The text `s` ends in a comment that opens behind `u`. -/
def OpenedAt (d : Dialect) (s u : List UInt8) : Prop :=
  ∃ b, s = u ++ slash :: star :: b ∧ lex d u = .code ∧ Unclosed b

theorem unclosed_nil : Unclosed [] := by
  intro h
  have := h.length_le
  simp at this

theorem unclosed_concat : Unclosed (b ++ [x]) ↔ Unclosed b ∧ ¬ (x = slash ∧ List.IsSuffix [star] b) := by
  have hsuffix : List.IsSuffix [star, slash] (b ++ [x]) ↔ x = slash ∧ List.IsSuffix [star] b := by
    rw [List.suffix_concat_iff]
    constructor
    · rintro (h | ⟨t, ht, hb⟩)
      · cases h
      · obtain ⟨rfl, hx⟩ := List.append_inj' (show [star] ++ [slash] = t ++ [x] from ht) rfl
        exact ⟨(List.singleton_inj.mp hx).symm, hb⟩
    · rintro ⟨rfl, hb⟩
      exact Or.inr ⟨[star], rfl, hb⟩
  unfold Unclosed
  rw [List.infix_concat_iff, hsuffix, not_or, and_comm]

/-! ### Inside a comment -/

/-- The lexer stays inside, and stands behind a star exactly when the text ends in one. -/
theorem block_foldl (hb : Unclosed b) : (b.foldl (next d) .block).InBlock ∧
    (b.foldl (next d) .block = .star ↔ List.IsSuffix [star] b) := by
  induction b using List.reverseRecOn with
  | nil => exact ⟨Or.inl rfl, by simp⟩
  | append_singleton b x ih =>
    obtain ⟨hunclosed, hx⟩ := unclosed_concat.mp hb
    obtain ⟨hin, hstar⟩ := ih hunclosed
    have hlast : List.IsSuffix [star] (b ++ [x]) ↔ x = star := by
      rw [List.suffix_concat_iff]
      constructor
      · rintro (h | ⟨t, ht, -⟩)
        · cases h
        · obtain ⟨-, hx⟩ := List.append_inj' (show [] ++ [star] = t ++ [x] from ht) rfl
          exact (List.singleton_inj.mp hx).symm
      · rintro rfl
        exact Or.inr ⟨[], rfl, List.nil_suffix⟩
    rw [List.foldl_append, List.foldl_cons, List.foldl_nil, hlast]
    rcases hin with hblock | hend
    · rw [hblock, next]
      by_cases h : x = star
      · rw [if_pos h]
        exact ⟨Or.inr rfl, iff_of_true rfl h⟩
      · rw [if_neg h]
        exact ⟨Or.inl rfl, iff_of_false (by simp) h⟩
    · have hslash : x ≠ slash := fun h => hx ⟨h, hstar.mp hend⟩
      rw [hend, next, if_neg hslash]
      by_cases h : x = star
      · rw [if_pos h]
        exact ⟨Or.inr rfl, iff_of_true rfl h⟩
      · rw [if_neg h]
        exact ⟨Or.inl rfl, iff_of_false (by simp) h⟩

theorem lex_opened (hu : lex d u = .code) (b : List UInt8) :
    lex d (u ++ slash :: star :: b) = b.foldl (next d) .block := by
  rw [lex_append, hu]
  rfl

theorem inCode_cases (x : UInt8) : (inCode x = .slash ∧ x = slash) ∨ inCode x = .code ∨
    ∃ q, inCode x = .constant q false := by
  unfold inCode
  split_ifs with hslash hquote
  · exact Or.inl ⟨rfl, hslash⟩
  · exact Or.inr (Or.inr ⟨_, rfl⟩)
  · exact Or.inr (Or.inl rfl)

/-- Only in code may a comment begin. -/
theorem next_slash (h : next d k x = .slash) : k = .code ∧ x = slash := by
  have hcode : inCode x = .slash → x = slash := by
    intro h
    rcases inCode_cases x with ⟨-, hx⟩ | hx | ⟨q, hx⟩
    · exact hx
    · rw [hx] at h
      cases h
    · rw [hx] at h
      cases h
  cases k with
  | code => exact ⟨rfl, hcode h⟩
  | slash =>
    rw [next] at h
    split_ifs at h with hslash
    exact absurd (hcode h) hslash
  | constant q b =>
    cases b
    · rw [next] at h
      split_ifs at h
    · rw [next] at h
      split_ifs at h
  | line | block | star =>
    rw [next] at h
    split_ifs at h

/-- A comment is entered by a star behind a slash. -/
theorem next_inBlock (h : (next d k x).InBlock) : k.InBlock ∨ (k = .slash ∧ x = star) := by
  have hcode : ¬ (inCode x).InBlock := by
    rcases inCode_cases x with ⟨hx, -⟩ | hx | ⟨q, hx⟩
    · rw [hx]
      decide
    · rw [hx]
      decide
    · rw [hx]
      rintro (h | h) <;> cases h
  cases k with
  | code => exact absurd h hcode
  | slash =>
    right
    rw [next] at h
    split_ifs at h with hslash hstar hquote
    · rcases h with h | h <;> cases h
    · exact ⟨rfl, hstar⟩
    · exact absurd h hcode
    · rcases h with h | h <;> cases h
  | constant q b =>
    cases b
    · rw [next] at h
      split_ifs at h <;> rcases h with h | h <;> cases h
    · rw [next] at h
      split_ifs at h <;> rcases h with h | h <;> cases h
  | line =>
    rw [next] at h
    split_ifs at h <;> rcases h with h | h <;> cases h
  | block => exact Or.inl (Or.inl rfl)
  | star => exact Or.inl (Or.inr rfl)

theorem lex_slash (h : lex d s = .slash) : ∃ u, s = u ++ [slash] ∧ lex d u = .code := by
  induction s using List.reverseRecOn with
  | nil => cases h
  | append_singleton u x _ =>
    rw [lex_concat] at h
    obtain ⟨hu, rfl⟩ := next_slash h
    exact ⟨u, rfl, hu⟩

/-- **The lexer is inside a comment exactly when one is open.** -/
theorem inBlock_lex : (lex d s).InBlock ↔ ∃ u, OpenedAt d s u := by
  constructor
  · induction s using List.reverseRecOn with
    | nil =>
      intro h
      rcases h with h | h <;> cases h
    | append_singleton s x ih =>
      rw [lex_concat]
      intro h
      rcases next_inBlock h with hin | ⟨hslash, rfl⟩
      · obtain ⟨u, b, rfl, hu, hb⟩ := ih hin
        refine ⟨u, b ++ [x], by simp, hu, unclosed_concat.mpr ⟨hb, ?_⟩⟩
        rintro ⟨rfl, hstar⟩
        rw [lex_opened hu, (block_foldl hb).2.mpr hstar] at h
        rcases h with h | h <;> cases h
      · obtain ⟨u, rfl, hu⟩ := lex_slash hslash
        exact ⟨u, [], by rw [List.append_assoc]; rfl, hu, unclosed_nil⟩
  · rintro ⟨u, b, rfl, hu, hb⟩
    rw [lex_opened hu]
    exact (block_foldl hb).1

/-! ### The report at the end of file -/

/-- An open comment is reported, with the line on which it opens, and nothing else is. -/
structure Reports (s : List UInt8) (r : Run) : Prop where
  inside : ∀ u, OpenedAt .c s u → r.stderr = errorLine (1 + u.count newline) ∧ r.code = EXIT_FAILURE
  outside : (¬ ∃ u, OpenedAt .c s u) → r.stderr = "" ∧ r.code = EXIT_SUCCESS

theorem line_cur_eq (c : UInt8) (s : List UInt8) :
    (machine.state (start c) s).line_cur = toInt (1 + s.count newline) := by
  have hswitch (v : Vars) (x : UInt8) : (switch v x).1.line_cur = v.line_cur := by
    unfold switch handleQuote handleWaitComment handleWaitEnd
    repeat' split
    all_goals rfl
  have hround (v : Vars) (x : UInt8) : (readChar v x).1.line_cur
      = if x = newline then addInt v.line_cur 1 else v.line_cur := by
    rw [← hswitch v x]
    unfold readChar
    split_ifs <;> rfl
  induction s using List.reverseRecOn with
  | nil => exact (toInt_of_bounds (n := 1) (by decide) (by decide)).symm
  | append_singleton s x ih =>
    rw [Transducer.state_concat]
    refine (hround _ x).trans ?_
    rw [ih, List.count_append]
    split_ifs with hx
    · rw [hx, addInt, toInt_add, List.count_singleton_self]
      push_cast
      rw [add_assoc]
    · rw [List.count_singleton, if_neg (by simpa using hx), Nat.add_zero]

/-- Inside a comment its line is kept. -/
theorem line_com_kept (hin : k.InBlock) (hv : Shows v k) (x : UInt8) :
    (readChar v x).1.line_com = v.line_com := by
  rw [(readChar_fst v x).2.2.2, switch, hv.state]
  rcases hin with rfl | rfl
  · show (if x = star then _ else if x = newline then _ else _ : Vars × List UInt8).1.line_com = _
    split_ifs <;> rfl
  · show (handleWaitEnd v x).1.line_com = _
    unfold handleWaitEnd
    split_ifs <;> rfl

/-- **The line of an open comment** is the one on which the program sees it open. -/
theorem line_com_eq (c : UInt8) (h : OpenedAt .program s u) :
    (machine.state (start c) s).line_com = toInt (1 + u.count newline) := by
  obtain ⟨b, rfl, hu, hb⟩ := h
  have hsplit (b : List UInt8) : u ++ slash :: star :: b = (u ++ [slash, star]) ++ b := by
    rw [List.append_assoc]
    rfl
  have hopen : (machine.state (start c) (u ++ [slash, star])).line_com = toInt (1 + u.count newline) := by
    have hstart : (machine.state (start c) u).state = .START := by
      rw [(shows_lex c u).state, hu]
      rfl
    have hslash : (machine.step (machine.state (start c) u) slash).1
        = { machine.state (start c) u with state := .WAIT_COMMENT } := by
      show (readChar _ slash).1 = _
      rw [readChar, switch, hstart]
      rfl
    rw [← line_cur_eq c u, Transducer.state_append, Transducer.state_cons, hslash]
    rfl
  rw [hsplit]
  induction b using List.reverseRecOn with
  | nil =>
    rw [List.append_nil]
    exact hopen
  | append_singleton b x ih =>
    have hunclosed := (unclosed_concat.mp hb).1
    have hin : (lex .program (u ++ [slash, star] ++ b)).InBlock := by
      rw [← hsplit]
      exact inBlock_lex.mpr ⟨u, b, rfl, hu, hunclosed⟩
    rw [← List.append_assoc, Transducer.state_concat]
    exact (line_com_kept hin (shows_lex c _) x).trans (ih hunclosed)

theorem report_eq (c : UInt8) (s : List UInt8) : report (machine.state (start c) s)
    = if (lex .program s).InBlock then errorLine (machine.state (start c) s).line_com else "" := by
  have hiff : (machine.state (start c) s).state = .MULTILINE ∨ (machine.state (start c) s).state = .WAIT_END
      ↔ (lex .program s).InBlock := by
    rw [(shows_lex c s).state]
    cases lex .program s <;> simp [Context.state, Context.InBlock]
  unfold report
  by_cases h : (lex .program s).InBlock
  · rw [if_pos (hiff.mpr h), if_pos h]
  · rw [if_neg (mt hiff.mp h), if_neg h]

/-- A comment that the program sees open is reported. -/
theorem main_stderr_of_opened (c : UInt8) (h : OpenedAt .program s u) :
    (main c s).stderr = errorLine (toInt (1 + u.count newline)) := by
  rw [main_stderr, report_eq, if_pos (inBlock_lex.mpr ⟨u, h⟩), line_com_eq c h]

theorem main_stderr_of_closed (c : UInt8) (h : ¬ ∃ u, OpenedAt .program s u) : (main c s).stderr = "" := by
  rw [main_stderr, report_eq, if_neg (mt inBlock_lex.mp h)]

theorem errorLine_ne (n : ℤ) : errorLine n ≠ "" := by
  simp [errorLine, toString]

/-- **Unterminated comments are reported exactly** if and only if the text does not end in a comment, by the
rules of C or by those of the program. -/
theorem unterminated_reported (c : UInt8) (s : List UInt8) : Reports s (main c s) ↔
    (¬ ∃ u, OpenedAt .c s u) ∧ ¬ ∃ u, OpenedAt .program s u := by
  constructor
  · intro h
    have hc : ¬ ∃ u, OpenedAt .c s u := by
      rintro ⟨u, hu⟩
      have hcode := (h.inside u hu).2
      rw [main_code] at hcode
      cases hcode
    refine ⟨hc, ?_⟩
    rintro ⟨u, hu⟩
    have herr := (h.outside hc).1
    rw [main_stderr_of_opened c hu] at herr
    exact errorLine_ne _ herr
  · rintro ⟨hc, hp⟩
    constructor
    · exact fun u hu => absurd ⟨u, hu⟩ hc
    · exact fun _ => ⟨main_stderr_of_closed c hp, main_code c s⟩

/-- At the end of an open comment the program still ends with `EXIT_SUCCESS`. -/
theorem unterminated_reported_fails : ¬ Reports [slash, star] (main 0 [slash, star]) := by
  intro h
  have hopen : OpenedAt .c [slash, star] [] := ⟨[], rfl, rfl, unclosed_nil⟩
  exact absurd (h.inside [] hopen).2 (by decide)

/-! ### What is printed for a comment -/

/-- Nothing is printed for the text of a comment to the end of the line. -/
theorem reader_line (hb : newline ∉ b) :
    (reader d).state .line b = .line ∧ (reader d).output .line b = [] := by
  induction b with
  | nil => exact ⟨rfl, rfl⟩
  | cons x b ih =>
    obtain ⟨hx, hrest⟩ := not_or.mp (mt List.mem_cons.mpr hb)
    have hstep : (reader d).step .line x = (.line, []) := by
      show (if x = newline then Context.code else .line, if x = newline then _ else _) = _
      rw [if_neg (Ne.symm hx), if_neg (Ne.symm hx)]
    rw [Transducer.state_cons, Transducer.output_cons, hstep]
    exact ih hrest

/-- Nothing is printed for the text of a `/* */` comment that stands on one line. -/
theorem reader_block (hb : newline ∉ b) (hunclosed : Unclosed b) : (reader .program).output .block b = [] := by
  induction b using List.reverseRecOn with
  | nil => rfl
  | append_singleton b x ih =>
    have hx : x ≠ newline := fun h => hb (by simp [h])
    have hprefix := (unclosed_concat.mp hunclosed).1
    rw [Transducer.output_append, ih (fun h => hb (by simp [h])) hprefix]
    show [] ++ (printed (b.foldl (next .program) .block) x ++ []) = []
    rcases (block_foldl hprefix).1 with hk | hk
    · rw [hk, printed, if_neg hx]
      rfl
    · rw [hk]
      rfl

theorem lex_of_state (h : (machine.state (start c) u).state = .START) : lex .program u = .code := by
  rw [(shows_lex c u).state] at h
  revert h
  cases lex .program u <;> simp [Context.state]

/-- **What the two styles print** differs by a space. -/
theorem comment_output (hu : (machine.state (start c) u).state = .START) (hb : newline ∉ b)
    (hunclosed : Unclosed b) (v : List UInt8) : ∃ w,
    (main c (u ++ slash :: slash :: (b ++ newline :: v))).stdout
        = (main c u).stdout ++ space :: space :: newline :: w ∧
      (main c (u ++ slash :: star :: (b ++ star :: slash :: newline :: v))).stdout
        = (main c u).stdout ++ space :: newline :: w := by
  have hcode : (reader .program).state .code u = .code := lex_of_state hu
  simp only [main_stdout_eq, Transducer.output_append, hcode]
  refine ⟨(reader .program).output .code v, ?_, ?_⟩
  · obtain ⟨hstate, hout⟩ := reader_line hb
    show _ ++ ([] ++ ([space] ++ (reader .program).output .line (b ++ newline :: v))) = _
    rw [Transducer.output_append, hstate, hout]
    rfl
  · have hclose : (reader .program).output ((reader .program).state .block b) (star :: slash :: newline :: v)
        = newline :: (reader .program).output .code v := by
      rcases (block_foldl (d := .program) hunclosed).1 with hk | hk
      · show (reader .program).output (b.foldl (next .program) .block) _ = _
        rw [hk]
        rfl
      · show (reader .program).output (b.foldl (next .program) .block) _ = _
        rw [hk]
        rfl
    show _ ++ ([] ++ ([space] ++ (reader .program).output .block (b ++ star :: slash :: newline :: v))) = _
    rw [Transducer.output_append, reader_block hb hunclosed, hclose]
    rfl

/-- **The two comment styles are never replaced alike.** -/
theorem comment_styles (c : UInt8) (hu : (machine.state (start c) u).state = .START) (hb : newline ∉ b)
    (hunclosed : Unclosed b) (v : List UInt8) :
    (main c (u ++ slash :: slash :: (b ++ newline :: v))).stdout
      ≠ (main c (u ++ slash :: star :: (b ++ star :: slash :: newline :: v))).stdout := by
  obtain ⟨w, hsingle, hmulti⟩ := comment_output hu hb hunclosed v
  rw [hsingle, hmulti]
  intro h
  have hsecond := (List.cons.inj (List.cons.inj (List.append_cancel_left h)).2).1
  exact absurd hsecond (by decide)

/-- The comments `//b*` and `/*b**/` behind a constant and before a division. -/
theorem comment_styles_sample :
    (main 0 ([doubleQuote, slash, star, doubleQuote]
        ++ slash :: slash :: ([98, star] ++ newline :: [slash, 99]))).stdout
      ≠ (main 0 ([doubleQuote, slash, star, doubleQuote]
          ++ slash :: star :: ([98, star] ++ star :: slash :: newline :: [slash, 99]))).stdout :=
  comment_styles 0 (by decide) (by decide) (by unfold Unclosed; decide) [slash, 99]

/-- A comment to the end of the line leaves two spaces. -/
theorem comment_styles_alike_fails :
    ¬ ∀ (c : UInt8) (u b v : List UInt8), (machine.state (start c) u).state = .START →
      newline ∉ b → Unclosed b →
      (main c (u ++ slash :: slash :: (b ++ newline :: v))).stdout
        = (main c (u ++ slash :: star :: (b ++ star :: slash :: newline :: v))).stdout := by
  intro h
  exact absurd (h 0 [] [] [] rfl List.not_mem_nil unclosed_nil) (by decide)

end SystemProgramming.Decomment
