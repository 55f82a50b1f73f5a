import SystemProgramming.Decomment.Comments
import SystemProgramming.Decomment.Tracking

/-!
# The pieces of a text

By the rules of C a text is a sequence of pieces: characters of code, slashes that open no comment, constants
with their escapes, and comments, with an ending where the file ends inside one of them.  Where it misreads no
quote, the program prints every piece as it stands but for the comments, which leave spaces and their newlines,
and reports a comment that is still open.

* `Piece.read` and `Ending.read`: what the lexer of C does on a piece, and on an ending.
* `exists_pieces`: every text is made of pieces.
* `reader_output_eq`: where no quote is misread, the lexers of C and of the program print the same.
* `decomment_pieces`: what the program prints and reports for the pieces of a text.
-/

namespace SystemProgramming.Decomment

/-- What may stand in a constant: characters, and escapes of a backslash with the character behind it. -/
inductive Inside (q : Quote) : List UInt8 → Prop where
  | nil : Inside q []
  | plain {body : List UInt8} {x : UInt8} (hx : x ≠ backslash ∧ x ≠ q.1) (h : Inside q body) :
      Inside q (body ++ [x])
  | escape {body : List UInt8} (x : UInt8) (h : Inside q body) : Inside q (body ++ [backslash, x])

/-- The quote that opens a constant, with the slash directly before it if there is one. -/
def opening (behindSlash : Bool) (q : Quote) : List UInt8 :=
  if behindSlash = true then [slash, q.1] else [q.1]

inductive Piece where
  | char (x : UInt8) (h : x ≠ slash ∧ x ≠ doubleQuote ∧ x ≠ singleQuote)
  | division (x : UInt8) (h : x ≠ slash ∧ x ≠ star ∧ x ≠ doubleQuote ∧ x ≠ singleQuote)
  | constant (behindSlash : Bool) (q : Quote) (body : List UInt8) (h : Inside q body)
  | line (body : List UInt8) (h : newline ∉ body)
  | block (body : List UInt8) (h : Unclosed body)

/-- Where the file ends; in a constant perhaps with a backslash that waits for its character. -/
inductive Ending where
  | code
  | slash
  | constant (behindSlash : Bool) (q : Quote) (body : List UInt8) (escaped : Bool) (h : Inside q body)
  | line (body : List UInt8) (h : newline ∉ body)
  | block (body : List UInt8) (h : Unclosed body)

/-- The newlines that a `/* */` comment keeps: those that do not stand directly behind a star. -/
def keptLines (behindStar : Bool) : List UInt8 → List UInt8
  | [] => []
  | x :: body =>
    (if x = newline ∧ behindStar = false then [newline] else []) ++ keptLines (decide (x = star)) body

namespace Piece

def text : Piece → List UInt8
  | char x _ => [x]
  | division x _ => [Decomment.slash, x]
  | constant behindSlash q body _ => opening behindSlash q ++ (body ++ [q.1])
  | line body _ => Decomment.slash :: Decomment.slash :: (body ++ [newline])
  | block body _ => Decomment.slash :: star :: (body ++ [star, Decomment.slash])

def printed : Piece → List UInt8
  | line _ _ => [space, space, newline]
  | block body _ => space :: keptLines false body
  | p => p.text

end Piece

namespace Ending

def text : Ending → List UInt8
  | code => []
  | slash => [Decomment.slash]
  | constant behindSlash q body escaped _ =>
    opening behindSlash q ++ (body ++ if escaped = true then [backslash] else [])
  | line body _ => Decomment.slash :: Decomment.slash :: body
  | block body _ => Decomment.slash :: star :: body

/-- A lone slash is not printed. -/
def printed : Ending → List UInt8
  | slash => []
  | line _ _ => [space]
  | block body _ => space :: keptLines false body
  | e => e.text

/-- The text for `stderr`, for an ending behind `u`. -/
def report (u : List UInt8) : Ending → String
  | block _ _ => errorLine (CInt.toInt (1 + u.count newline))
  | _ => ""

end Ending

/-- The text of a sequence of pieces. -/
def textOf (ps : List Piece) : List UInt8 := ps.flatMap Piece.text

variable {q : Quote} {s body u : List UInt8} {x : UInt8} {k : Context} {d : Dialect}

/-! ### Constants -/

/-- The lexer of C stays inside, and no backslash is pending. -/
theorem reader_inside (h : Inside q body) :
    (reader .c).state (.constant q false) body = .constant q false ∧
      (reader .c).output (.constant q false) body = body := by
  induction h with
  | nil => exact ⟨rfl, rfl⟩
  | plain hx h ih =>
    obtain ⟨hstate, hout⟩ := ih
    rw [Transducer.state_concat, Transducer.output_append, hstate, hout]
    refine ⟨?_, rfl⟩
    show next .c (.constant q false) _ = _
    rw [next, if_neg hx.1, if_neg hx.2]
  | escape x h ih =>
    obtain ⟨hstate, hout⟩ := ih
    rw [Transducer.state_append, Transducer.output_append, hstate, hout]
    have hback : (reader .c).step (.constant q false) backslash = (.constant q true, [backslash]) := rfl
    have hnext : (reader .c).step (.constant q true) x = (.constant q false, [x]) := by
      show (next .c (.constant q true) x, _) = _
      rw [next, if_neg fun hx => Bool.noConfusion hx.2]
      rfl
    rw [Transducer.state_cons, Transducer.output_cons, hback, Transducer.state_cons, Transducer.output_cons,
      hnext]
    exact ⟨rfl, rfl⟩

theorem reader_opening (behindSlash : Bool) (q : Quote) (s : List UInt8) :
    (reader .c).state .code (opening behindSlash q ++ s) = (reader .c).state (.constant q false) s ∧
      (reader .c).output .code (opening behindSlash q ++ s)
        = opening behindSlash q ++ (reader .c).output (.constant q false) s := by
  obtain ⟨x, rfl | rfl⟩ := q <;> cases behindSlash <;> exact ⟨rfl, rfl⟩

/-! ### Comments -/

theorem Unclosed.tail (h : Unclosed (x :: body)) : Unclosed body :=
  fun hin => h (List.infix_cons hin)

/-- In a comment the newlines are printed that are kept. -/
theorem reader_keptLines : (Unclosed body → (reader d).output .block body = keptLines false body) ∧
    (Unclosed (star :: body) → (reader d).output .star body = keptLines true body) := by
  induction body with
  | nil => exact ⟨fun _ => rfl, fun _ => rfl⟩
  | cons x body ih =>
    have hrest (hstar : x = star → Unclosed (star :: body)) (hbody : Unclosed body) :
        (reader d).output (if x = star then .star else .block) body
          = keptLines (decide (x = star)) body := by
      by_cases hx : x = star
      · rw [if_pos hx, decide_eq_true hx]
        exact ih.2 (hstar hx)
      · rw [if_neg hx, decide_eq_false hx]
        exact ih.1 hbody
    constructor
    · intro h
      have hprinted : printed .block x = if x = newline ∧ false = false then [newline] else [] := by
        simp only [printed, and_true]
      show printed .block x ++ (reader d).output (next d .block x) body = _
      rw [hprinted, next, hrest (fun hx => by rwa [← hx]) h.tail]
      rfl
    · intro h
      have hslash : x ≠ slash := by
        rintro rfl
        exact h ⟨[], body, rfl⟩
      show [] ++ (reader d).output (next d .star x) body = _
      rw [next, if_neg hslash, hrest (fun hx => by rw [← hx]; exact h.tail) h.tail.tail, keptLines]
      rw [if_neg fun hline => Bool.noConfusion hline.2]

theorem lex_block (h : Unclosed body) : ((reader d).state .block body).InBlock := (block_foldl h).1

/-! ### The lexer of C over pieces -/

/-- Behind a piece the lexer of C is in code. -/
theorem Piece.read (p : Piece) :
    (reader .c).state .code p.text = .code ∧ (reader .c).output .code p.text = p.printed := by
  cases p with
  | char x h =>
    obtain ⟨hslash, hdouble, hsingle⟩ := h
    constructor
    · show inCode x = .code
      rw [inCode, if_neg hslash, dif_neg (not_or.mpr ⟨hdouble, hsingle⟩)]
    · show Decomment.printed .code x ++ [] = [x]
      rw [Decomment.printed, if_neg hslash]
      rfl
  | division x h =>
    obtain ⟨hslash, hstar, hdouble, hsingle⟩ := h
    constructor
    · show next .c .slash x = .code
      rw [next, if_neg hslash, if_neg hstar, if_pos (show Dialect.c.opensBehindSlash = true from rfl), inCode,
        if_neg hslash, dif_neg (not_or.mpr ⟨hdouble, hsingle⟩)]
    · show [] ++ (Decomment.printed .slash x ++ []) = [slash, x]
      rw [Decomment.printed, if_neg (not_or.mpr ⟨hslash, hstar⟩)]
      rfl
  | constant behindSlash q body h =>
    obtain ⟨hstate, hout⟩ := reader_inside h
    have hclosed : next .c (.constant q false) q.1 = .code := by
      rw [next, if_neg q.ne_backslash, if_pos rfl]
    rw [text, (reader_opening behindSlash q _).1, (reader_opening behindSlash q _).2,
      Transducer.state_concat, Transducer.output_append, hstate, hout]
    exact ⟨hclosed, rfl⟩
  | line body h =>
    obtain ⟨hstate, hout⟩ := reader_line (d := .c) h
    show (reader .c).state .line (body ++ [newline]) = .code
      ∧ [] ++ ([space] ++ (reader .c).output .line (body ++ [newline])) = _
    rw [Transducer.state_append, Transducer.output_append, hstate, hout]
    exact ⟨rfl, rfl⟩
  | block body h =>
    show (reader .c).state .block (body ++ [star, slash]) = .code
      ∧ [] ++ ([space] ++ (reader .c).output .block (body ++ [star, slash])) = space :: keptLines false body
    rw [Transducer.state_append, Transducer.output_append, reader_keptLines.1 h]
    have hclose : (reader .c).state ((reader .c).state .block body) [star, slash] = .code
        ∧ (reader .c).output ((reader .c).state .block body) [star, slash] = [] := by
      rcases lex_block (d := .c) h with hk | hk
      · rw [hk]
        exact ⟨rfl, rfl⟩
      · rw [hk]
        exact ⟨rfl, rfl⟩
    rw [hclose.2, List.append_nil]
    exact ⟨hclose.1, rfl⟩

/-- Behind any number of pieces the lexer of C is in code. -/
theorem read_pieces (ps : List Piece) : (reader .c).state .code (textOf ps) = .code ∧
    (reader .c).output .code (textOf ps) = ps.flatMap Piece.printed := by
  induction ps with
  | nil => exact ⟨rfl, rfl⟩
  | cons p ps ih =>
    obtain ⟨hstate, hout⟩ := p.read
    rw [textOf, List.flatMap_cons, List.flatMap_cons, Transducer.state_append, Transducer.output_append, hstate,
      hout]
    exact ⟨ih.1, congrArg _ ih.2⟩

/-- Where an ending leaves the lexer of C: in a comment only if it is one. -/
theorem Ending.read (e : Ending) : (reader .c).output .code e.text = e.printed ∧
    (((reader .c).state .code e.text).InBlock → ∃ body h, e = .block body h) := by
  cases e with
  | code => exact ⟨rfl, fun h => absurd h (by decide)⟩
  | slash => exact ⟨rfl, fun h => absurd h (by decide)⟩
  | constant behindSlash q body escaped h =>
    obtain ⟨hstate, hout⟩ := reader_inside h
    rw [text, (reader_opening behindSlash q _).1, (reader_opening behindSlash q _).2, Transducer.state_append,
      Transducer.output_append, hstate, hout]
    cases escaped with
    | false => exact ⟨rfl, by rintro (h | h) <;> cases h⟩
    | true => exact ⟨rfl, by rintro (h | h) <;> cases h⟩
  | line body h =>
    obtain ⟨hstate, hout⟩ := reader_line (d := .c) h
    show [] ++ ([space] ++ (reader .c).output .line body) = [space]
      ∧ (((reader .c).state .line body).InBlock → _)
    rw [hstate, hout]
    exact ⟨rfl, fun h => absurd h (by decide)⟩
  | block body h =>
    show [] ++ ([space] ++ (reader .c).output .block body) = space :: keptLines false body ∧ _
    rw [reader_keptLines.1 h]
    exact ⟨rfl, fun _ => ⟨body, h, rfl⟩⟩

/-! ### Every text has pieces -/

/-- A character more behind an ending: the pieces that are complete now, and the new ending. -/
theorem Ending.snoc (e : Ending) (x : UInt8) :
    ∃ (ps : List Piece) (e' : Ending), e.text ++ [x] = textOf ps ++ e'.text := by
  have hcomplete (p : Piece) (hp : e.text ++ [x] = p.text) :
      ∃ ps e', e.text ++ [x] = textOf ps ++ Ending.text e' := by
    refine ⟨[p], .code, ?_⟩
    rw [hp, textOf, List.flatMap_singleton]
    exact (List.append_nil _).symm
  have hopen (e' : Ending) (he : e.text ++ [x] = e'.text) : ∃ ps e', e.text ++ [x] = textOf ps ++ Ending.text e' :=
    ⟨[], e', he⟩
  cases e with
  | code =>
    by_cases hslash : x = Decomment.slash
    · exact hopen .slash (by rw [hslash]; rfl)
    · by_cases hquote : x = doubleQuote ∨ x = singleQuote
      · exact hopen (.constant false ⟨x, hquote⟩ [] false .nil) rfl
      · exact hcomplete (.char x ⟨hslash, not_or.mp hquote⟩) rfl
  | slash =>
    by_cases hslash : x = Decomment.slash
    · exact hopen (.line [] List.not_mem_nil) (by rw [hslash]; rfl)
    · by_cases hstar : x = star
      · exact hopen (.block [] unclosed_nil) (by rw [hstar]; rfl)
      · by_cases hquote : x = doubleQuote ∨ x = singleQuote
        · exact hopen (.constant true ⟨x, hquote⟩ [] false .nil) rfl
        · exact hcomplete (.division x ⟨hslash, hstar, not_or.mp hquote⟩) rfl
  | constant behindSlash q body escaped h =>
    have htext (tail : List UInt8) : Ending.text (.constant behindSlash q body escaped h) ++ tail
        = opening behindSlash q ++ ((body ++ if escaped = true then [backslash] else []) ++ tail) :=
      List.append_assoc _ _ _
    cases escaped with
    | true =>
      apply hopen (.constant behindSlash q (body ++ [backslash, x]) false (.escape x h))
      rw [htext, text, if_pos rfl, if_neg Bool.false_ne_true, List.append_nil, List.append_assoc]
      rfl
    | false =>
      rw [if_neg Bool.false_ne_true, List.append_nil] at htext
      by_cases hback : x = backslash
      · apply hopen (.constant behindSlash q body true h)
        rw [htext, hback]
        rfl
      · by_cases hclose : x = q.1
        · apply hcomplete (.constant behindSlash q body h)
          rw [htext, hclose]
          rfl
        · apply hopen (.constant behindSlash q (body ++ [x]) false (.plain ⟨hback, hclose⟩ h))
          rw [htext, text, if_neg Bool.false_ne_true, List.append_nil]
  | line body h =>
    by_cases hline : x = newline
    · exact hcomplete (.line body h) (by rw [hline]; rfl)
    · have hout : newline ∉ body ++ [x] := by simp [h, Ne.symm hline]
      exact hopen (.line (body ++ [x]) hout) rfl
  | block body h =>
    by_cases hclose : x = Decomment.slash ∧ List.IsSuffix [star] body
    · obtain ⟨rfl, body, rfl⟩ := hclose
      refine hcomplete (.block body (unclosed_concat.mp h).1) ?_
      show Decomment.slash :: star :: (body ++ [star] ++ [Decomment.slash]) = _
      rw [List.append_assoc]
      rfl
    · exact hopen (.block (body ++ [x]) (unclosed_concat.mpr ⟨h, hclose⟩)) rfl

theorem exists_pieces (s : List UInt8) : ∃ (ps : List Piece) (e : Ending), s = textOf ps ++ e.text := by
  induction s using List.reverseRecOn with
  | nil => exact ⟨[], .code, rfl⟩
  | append_singleton s x ih =>
    obtain ⟨ps, e, rfl⟩ := ih
    obtain ⟨ps', e', he⟩ := e.snoc x
    refine ⟨ps ++ ps', e', ?_⟩
    rw [List.append_assoc, he, textOf, textOf, textOf, List.flatMap_append, List.append_assoc]

/-! ### Where no quote is misread -/

/-- The program takes no character of the text for something else. -/
def Read (s : List UInt8) : Prop := ∀ u x w, s = u ++ x :: w → ¬ Misread u x

theorem Read.near (h : Read s) {w : List UInt8} (hs : s = u ++ w) : Near u :=
  near_of_steps (fun u x w hs _ => h u x w hs) u w hs

/-- A backslash is pending directly behind it. -/
theorem lex_escaped (h : lex d s = .constant q true) : List.IsSuffix [backslash] s := by
  induction s using List.reverseRecOn with
  | nil => cases h
  | append_singleton s x _ =>
    have hx : x = backslash := by
      rw [lex_concat] at h
      cases hk : lex d s with
      | constant q' b =>
        rw [hk] at h
        cases b
        · rw [next] at h
          split_ifs at h with hback
          · exact hback
          · cases h
        · rw [next] at h
          split_ifs at h with hback
          · exact hback.1
          · cases h
      | slash =>
        rw [hk, next] at h
        split_ifs at h
        rcases inCode_cases x with ⟨hcode, -⟩ | hcode | ⟨q', hcode⟩ <;> rw [hcode] at h <;> cases h
      | code =>
        rw [hk, next] at h
        rcases inCode_cases x with ⟨hcode, -⟩ | hcode | ⟨q', hcode⟩ <;> rw [hcode] at h <;> cases h
      | line | block | star =>
        rw [hk, next] at h
        split_ifs at h
    rw [hx]
    exact List.suffix_append s [backslash]

/-- Nothing is misread in a text without two backslashes in a row and without a slash before a quote. -/
theorem read_of_plain (hback : ¬ List.IsInfix [backslash, backslash] s)
    (hdouble : ¬ List.IsInfix [slash, doubleQuote] s) (hsingle : ¬ List.IsInfix [slash, singleQuote] s) :
    Read s := by
  rintro u x w rfl (⟨hu, hquote⟩ | ⟨u, q, rfl, hu, rfl⟩)
  · obtain ⟨u, rfl, -⟩ := lex_slash hu
    rcases hquote with rfl | rfl
    · exact hdouble ⟨u, w, by simp⟩
    · exact hsingle ⟨u, w, by simp⟩
  · obtain ⟨u, rfl⟩ := lex_escaped hu
    exact hback ⟨u, q.1 :: w, by simp⟩

/-- What is printed for a character does not depend on whether a backslash is pending. -/
theorem Near.printed (h : Near u) (x : UInt8) : printed (lex .program u) x = printed (lex .c u) x := by
  rcases h with hsame | ⟨w, q, -, -, hc, hp⟩
  · rw [hsame]
  · rw [hc, hp]
    rfl

theorem Near.code (h : Near u) (hcode : lex .c u = .code) : lex .program u = .code := by
  rcases h with hsame | ⟨w, q, -, -, hc, -⟩
  · exact hsame.trans hcode
  · rw [hcode] at hc
    cases hc

/-- **The lexers of C and of the program print the same.** -/
theorem reader_output_eq (h : Read s) : (reader .program).output .code s = (reader .c).output .code s := by
  induction s using List.reverseRecOn with
  | nil => rfl
  | append_singleton s x ih =>
    have hread : Read s := fun u y w hs => h u y (w ++ [x]) (by rw [hs, List.append_assoc]; rfl)
    have hlast : printed (lex .program s) x = printed (lex .c s) x := (h.near rfl).printed x
    rw [Transducer.output_append, Transducer.output_append, ih hread]
    exact congrArg (_ ++ ·) (congrArg (· ++ []) hlast)

/-- Only a `/* */` comment is reported. -/
theorem Ending.stderr (c : UInt8) (ps : List Piece) (e : Ending) (h : Read (textOf ps ++ e.text)) :
    (main c (textOf ps ++ e.text)).stderr = e.report (textOf ps) := by
  have hcode : lex .c (textOf ps) = .code := (read_pieces ps).1
  have hclosed (hout : ¬ ∃ body h, e = .block body h) : (main c (textOf ps ++ e.text)).stderr = "" := by
    apply main_stderr_of_closed
    rw [← inBlock_lex]
    intro hin
    rcases h.near (List.append_nil _).symm with hsame | ⟨w, q, -, -, -, hp⟩
    · rw [hsame, lex_append, hcode] at hin
      exact hout (e.read.2 hin)
    · rw [hp] at hin
      rcases hin with hin | hin <;> cases hin
  cases e with
  | block body hbody => exact main_stderr_of_opened c ⟨body, rfl, (h.near rfl).code hcode, hbody⟩
  | _ => exact hclosed (by rintro ⟨body, h, he⟩; cases he)

/-- **Only comments are replaced**: every text is made of pieces, and however it is cut into pieces, the program
prints each piece as it stands but for the comments, and a slash at the end of the file, and reports a comment
that is still open, unless a quote of the text opens a constant directly behind a slash or closes one directly
behind an escaped backslash. -/
theorem decomment_pieces (c : UInt8) (s : List UInt8) :
    (∃ (ps : List Piece) (e : Ending), s = textOf ps ++ e.text) ∧
      ∀ (ps : List Piece) (e : Ending), s = textOf ps ++ e.text → Read s →
        main c s = ⟨ps.flatMap Piece.printed ++ e.printed, e.report (textOf ps), EXIT_SUCCESS⟩ := by
  refine ⟨exists_pieces s, ?_⟩
  rintro ps e rfl hread
  have hout : (main c (textOf ps ++ e.text)).stdout = ps.flatMap Piece.printed ++ e.printed := by
    obtain ⟨hstate, hout⟩ := read_pieces ps
    rw [main_stdout_eq, reader_output_eq hread, Transducer.output_append, hstate, hout, e.read.1]
  rw [← hout, ← e.stderr c ps hread, ← main_code c (textOf ps ++ e.text)]

/-- A constant with an escaped quote, a comment on two lines, and one that is still open. -/
def sampleText : List UInt8 :=
  [doubleQuote, backslash, doubleQuote, slash, slash, 97, doubleQuote, slash, star, 98, newline, star, slash,
    99, newline, slash, star, 100]

/-- The theorem for the text with an open comment on its third line. -/
theorem decomment_pieces_sample : main 0 sampleText
    = ⟨[doubleQuote, backslash, doubleQuote, slash, slash, 97, doubleQuote, space, newline, 99, newline, space],
      errorLine 3, EXIT_SUCCESS⟩ := by
  have hread : Read sampleText := read_of_plain (by decide) (by decide) (by decide)
  have hinside : Inside ⟨doubleQuote, Or.inl rfl⟩
      ([] ++ [backslash, doubleQuote] ++ [slash] ++ [slash] ++ [97]) :=
    .plain (by decide) (.plain (by decide) (.plain (by decide) (.escape doubleQuote .nil)))
  have hlines : Unclosed [98, newline] := by
    unfold Unclosed
    decide
  have hlast : Unclosed [100] := by
    unfold Unclosed
    decide
  rw [(decomment_pieces 0 sampleText).2
    [.constant false _ _ hinside, .block _ hlines, .char 99 (by decide), .char newline (by decide)]
    (.block _ hlast) rfl hread]
  have hline : CInt.toInt (1 + 2) = 3 := CInt.toInt_of_bounds (by decide) (by decide)
  show Run.mk _ (errorLine (CInt.toInt (1 + 2))) EXIT_SUCCESS = _
  rw [hline]
  rfl

end SystemProgramming.Decomment
