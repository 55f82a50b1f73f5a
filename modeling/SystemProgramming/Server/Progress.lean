import SystemProgramming.Server.Framing
import Mathlib.Data.Nat.Count

/-!
# Progress of the per-client loop

When the per-client loop ends.  Each iteration receives, closes, or passes a line on, and only an
answer 0 of `skvs_serve` leaves everything as it was: the loop has no end exactly when the answers
become 0 for ever while a line is in the buffer.

* `clientLoop_ends_iff`: when the loop ends, by the calls and the lines that are left.
* `handle_client_ends`: when it ends, by the stream and the answers.
* `handle_client_spins`: a loop that has no end.
-/

namespace SystemProgramming.Server

open Exec Lines

variable {cfg : Config} {p : List Byte} {cs : List Chunk} {ls : List (List Byte)} {s : Conn}
  {answers : ℕ → Served} {k n : ℕ}

/-- The configuration whose `k`-th call of `skvs_serve` returns `answers k`. -/
def Config.answering (cfg : Config) (answers : ℕ → Served) : Config :=
  { cfg with skvs_serve := fun served => answers (served.length - 1) }

/-- The lines that a stream offers to `skvs_serve`: those before the first empty line. -/
def offeredLines (BUF_SIZE : ℕ) (p : List Byte) (cs : List Chunk) : List (List Byte) :=
  (framedLines BUF_SIZE p cs).takeWhile (· ≠ [newline])

/-! ### The answers and the lines that are left -/

/-- The loop ends when call `k` is the next and `n` lines are left. -/
inductive Ends (answers : ℕ → Served) : ℕ → ℕ → Prop where
  | done {k : ℕ} : Ends answers k 0
  | dropped {k n : ℕ} (h : (answers k).ret < 0) : Ends answers k (n + 1)
  | again {k n : ℕ} (h : (answers k).ret = 0) (hr : Ends answers (k + 1) (n + 1)) :
      Ends answers k (n + 1)
  | next {k n : ℕ} (h : 0 < (answers k).ret) (hr : Ends answers (k + 1) n) : Ends answers k (n + 1)

/-- The number of positive answers among the first `k`. -/
def accepts (answers : ℕ → Served) (k : ℕ) : ℕ := Nat.count (fun j => 0 < (answers j).ret) k

theorem accepts_succ :
    accepts answers (k + 1) = accepts answers k + if 0 < (answers k).ret then 1 else 0 :=
  Nat.count_succ _ _

/-- From call `k` on, the answers do not become 0 for ever while one of `n` lines is left. -/
def MovesOn (answers : ℕ → Served) (k n : ℕ) : Prop :=
  ∀ m, k ≤ m → (∀ j, k ≤ j → j < m → 0 ≤ (answers j).ret) →
    accepts answers m < accepts answers k + n → ∃ j, m ≤ j ∧ (answers j).ret ≠ 0

theorem MovesOn.succ {n' : ℕ} (h : MovesOn answers k n) (hret : 0 ≤ (answers k).ret)
    (hn : accepts answers k + n = accepts answers (k + 1) + n') :
    MovesOn answers (k + 1) n' := by
  intro m hm hall hcount
  apply h m (by omega)
  · intro j hkj hjm
    rcases Nat.eq_or_lt_of_le hkj with rfl | hlt
    · exact hret
    · exact hall j hlt hjm
  · omega

theorem Ends.movesOn (h : Ends answers k n) : MovesOn answers k n := by
  induction h with
  | done =>
    intro m hm _ hcount
    have := Nat.count_monotone (fun j => 0 < (answers j).ret) hm
    unfold accepts at hcount
    omega
  | dropped hneg =>
    intro m hm hall _
    rcases Nat.eq_or_lt_of_le hm with rfl | hlt
    · exact ⟨_, Nat.le_refl _, by omega⟩
    · have := hall _ (Nat.le_refl _) hlt
      omega
  | @again k n hzero _ ih =>
    have hsame : accepts answers (k + 1) = accepts answers k := by
      rw [accepts_succ, if_neg (by omega)]
      rfl
    intro m hm hall hcount
    rcases Nat.eq_or_lt_of_le hm with rfl | hlt
    · obtain ⟨j, hj, hne⟩ := ih _ (Nat.le_refl _) (fun _ h1 h2 => by omega) (by omega)
      exact ⟨j, by omega, hne⟩
    · apply ih m hlt
      · exact fun j h1 h2 => hall j (by omega) h2
      · omega
  | next hpos _ ih =>
    intro m hm hall hcount
    rcases Nat.eq_or_lt_of_le hm with rfl | hlt
    · exact ⟨_, Nat.le_refl _, by omega⟩
    · apply ih m hlt
      · exact fun j h1 h2 => hall j (by omega) h2
      · rw [accepts_succ, if_pos hpos]
        omega

/-- The lines are served one by one; for each, the zeros before the next other answer are gone
through. -/
theorem MovesOn.ends (h : MovesOn answers k n) : Ends answers k n := by
  induction n generalizing k with
  | zero => exact .done
  | succ n ihn =>
    have hfirst : ∃ j, k ≤ j ∧ (answers j).ret ≠ 0 :=
      h k (Nat.le_refl k) (fun _ h1 h2 => by omega) (by omega)
    obtain ⟨j, hkj, hne⟩ := hfirst
    obtain ⟨d, rfl⟩ := Nat.exists_eq_add_of_le hkj
    clear hkj
    induction d generalizing k with
    | zero =>
      rcases lt_or_gt_of_ne hne with hneg | hpos
      · exact .dropped hneg
      · have hpos' : 0 < (answers k).ret := hpos
        apply Ends.next hpos' (ihn (h.succ (Int.le_of_lt hpos') _))
        rw [accepts_succ, if_pos hpos']
        omega
    | succ d ihd =>
      rcases lt_trichotomy (answers k).ret 0 with hneg | hzero | hpos
      · exact .dropped hneg
      · apply Ends.again hzero
        apply ihd
        · apply h.succ (by omega)
          rw [accepts_succ, if_neg (by omega)]
          omega
        · rw [Nat.add_right_comm]
          exact hne
      · apply Ends.next hpos (ihn (h.succ (Int.le_of_lt hpos) _))
        rw [accepts_succ, if_pos hpos]
        omega

theorem ends_iff : Ends answers k n ↔ MovesOn answers k n := ⟨Ends.movesOn, MovesOn.ends⟩

/-! ### One iteration, then the loop -/

/-- What one iteration does to the calls made and the lines that are left. -/
theorem clientIteration_cases (h : Receives (cfg.answering answers) p cs ls s) :
    ∃ goes s', clientIteration (cfg.answering answers) s = .ok goes s' ∧
      ((goes = false ∧ offeredLines cfg.BUF_SIZE p cs = []) ∨
        ∃ line q ds rest, offeredLines cfg.BUF_SIZE p cs = line :: rest ∧
          ((goes = false ∧ (answers ls.length).ret < 0) ∨
            (goes = true ∧ Receives (cfg.answering answers) q ds (ls ++ [line]) s' ∧
              ((answers ls.length).ret = 0 ∧ offeredLines cfg.BUF_SIZE q ds = line :: rest ∨
                0 < (answers ls.length).ret ∧ offeredLines cfg.BUF_SIZE q ds = rest)))) := by
  apply wp_clientIteration h
  · intro s' _ hnil
    refine Or.inl ⟨rfl, ?_⟩
    have hnil' : framedLines cfg.BUF_SIZE p cs = [] := hnil
    rw [offeredLines, hnil', List.takeWhile_nil]
  · intro s' ls' ls'' _ _ hframed
    refine Or.inl ⟨rfl, ?_⟩
    have hframed' : framedLines cfg.BUF_SIZE p cs = [newline] :: ls'' := hframed
    rw [offeredLines, hframed', List.takeWhile_cons, if_neg (by simp)]
  · intro line q ds _ hne _ _ hframed
    have hframed' : framedLines cfg.BUF_SIZE p cs = line :: framedLines cfg.BUF_SIZE q ds := hframed
    have hoffered : offeredLines cfg.BUF_SIZE p cs = line :: offeredLines cfg.BUF_SIZE q ds := by
      rw [offeredLines, hframed', List.takeWhile_cons, if_pos (by simpa using hne)]
      rfl
    have hcall : (cfg.answering answers).skvs_serve (ls ++ [line]) = answers ls.length := by
      show answers ((ls ++ [line]).length - 1) = _
      rw [List.length_append]
      rfl
    rw [hcall]
    refine ⟨fun hneg s' _ => ?_, fun hzero s' r hr hrec => ?_, fun hpos s' hrec => ?_⟩
    · exact Or.inr ⟨line, [], [], _, hoffered, Or.inl ⟨rfl, hneg⟩⟩
    · have hr' : framedLines cfg.BUF_SIZE r ds = framedLines cfg.BUF_SIZE p cs := hr
      have hsame : offeredLines cfg.BUF_SIZE r ds = offeredLines cfg.BUF_SIZE p cs := by
        rw [offeredLines, hr']
        rfl
      exact Or.inr ⟨line, r, ds, _, hoffered,
        Or.inr ⟨rfl, hrec, Or.inl ⟨hzero, hsame.trans hoffered⟩⟩⟩
    · exact Or.inr ⟨line, q, ds, _, hoffered, Or.inr ⟨rfl, hrec, Or.inr ⟨hpos, rfl⟩⟩⟩

/-- **The loop ends** exactly when the calls and the lines that are left say so. -/
theorem clientLoop_ends_iff (h : Receives (cfg.answering answers) p cs ls s) :
    (∃ fuel, wp (clientLoop (cfg.answering answers) fuel) (fun _ _ => True) s) ↔
      Ends answers ls.length (offeredLines cfg.BUF_SIZE p cs).length := by
  have hloop : ∀ {p cs ls s} fuel, Receives (cfg.answering answers) p cs ls s →
      (wp (clientLoop (cfg.answering answers) (fuel + 1)) (fun _ _ => True) s ↔
        wp (clientIteration (cfg.answering answers)) (fun goes s' => wp
          (if goes = true then clientLoop (cfg.answering answers) fuel else pure ())
            (fun _ _ => True) s') s) := by
    intro p cs ls s fuel h
    rw [clientLoop, wp_bind, wp_reads, id, if_pos ⟨h.running, h.alive⟩, wp_bind]
  constructor
  · intro ⟨fuel, hfuel⟩
    induction fuel generalizing p cs ls s with
    | zero =>
      obtain ⟨_, _, ht, _⟩ := hfuel
      cases ht
    | succ fuel ih =>
      rw [hloop fuel h] at hfuel
      obtain ⟨goes, s', hit, hcases⟩ := clientIteration_cases h
      rw [wp_iff_of_ok hit] at hfuel
      rcases hcases with ⟨-, hnil⟩ | ⟨line, q, ds, rest, hoffered, hans⟩
      · rw [hnil]
        exact .done
      rw [hoffered]
      rcases hans with ⟨-, hneg⟩ | ⟨rfl, hrec, hans⟩
      · exact .dropped hneg
      have hrest := ih hrec hfuel
      rw [List.length_append] at hrest
      rcases hans with ⟨hzero, hsame⟩ | ⟨hpos, hless⟩
      · rw [hsame] at hrest
        exact .again hzero hrest
      · rw [hless] at hrest
        exact .next hpos hrest
  · intro hends
    generalize hk : ls.length = k at hends
    generalize hn : (offeredLines cfg.BUF_SIZE p cs).length = n at hends
    induction hends generalizing p cs ls s with
    | done =>
      refine ⟨1, (hloop 0 h).mpr ?_⟩
      obtain ⟨goes, s', hit, hcases⟩ := clientIteration_cases h
      rw [wp_iff_of_ok hit]
      rcases hcases with ⟨rfl, -⟩ | ⟨line, q, ds, rest, hoffered, -⟩
      · exact (wp_pure ()).mpr trivial
      · rw [hoffered] at hn
        cases hn
    | dropped hneg =>
      refine ⟨1, (hloop 0 h).mpr ?_⟩
      obtain ⟨goes, s', hit, hcases⟩ := clientIteration_cases h
      rw [wp_iff_of_ok hit]
      rw [hk] at hcases
      rcases hcases with ⟨rfl, -⟩ | ⟨line, q, ds, rest, -, ⟨rfl, -⟩ | ⟨-, -, hans⟩⟩
      · exact (wp_pure ()).mpr trivial
      · exact (wp_pure ()).mpr trivial
      · omega
    | again hzero _ ih =>
      obtain ⟨goes, s', hit, hcases⟩ := clientIteration_cases h
      rw [hk] at hcases
      rcases hcases with ⟨-, hnil⟩ | ⟨line, q, ds, rest, hoffered, ⟨-, hneg⟩ | ⟨rfl, hrec, hans⟩⟩
      · rw [hnil] at hn
        cases hn
      · omega
      rcases hans with ⟨-, hsame⟩ | ⟨hpos, -⟩
      · obtain ⟨fuel, hfuel⟩ := ih hrec (by rw [List.length_append, hk]; rfl)
          (by rw [hsame, ← hoffered, hn])
        refine ⟨fuel + 1, (hloop fuel h).mpr ?_⟩
        rw [wp_iff_of_ok hit]
        exact hfuel
      · omega
    | next hpos _ ih =>
      obtain ⟨goes, s', hit, hcases⟩ := clientIteration_cases h
      rw [hk] at hcases
      rcases hcases with ⟨-, hnil⟩ | ⟨line, q, ds, rest, hoffered, ⟨-, hneg⟩ | ⟨rfl, hrec, hans⟩⟩
      · rw [hnil] at hn
        cases hn
      · omega
      rw [hoffered] at hn
      rcases hans with ⟨hzero, -⟩ | ⟨-, hless⟩
      · omega
      · obtain ⟨fuel, hfuel⟩ := ih hrec (by rw [List.length_append, hk]; rfl)
          (by rw [hless]; exact Nat.succ.inj hn)
        refine ⟨fuel + 1, (hloop fuel h).mpr ?_⟩
        rw [wp_iff_of_ok hit]
        exact hfuel

/-- **When a client's loop ends.**  For every stream that ends, every segmentation, every pattern of
partial sends and every sequence of answers, the loop exits exactly when the answers do not become 0
for ever while a line that the stream offers has not been accepted. -/
theorem handle_client_ends (cfg : Config) (answers : ℕ → Served) (buf : List Byte)
    (hbuf : buf.length = cfg.BUF_SIZE) (sends : List Send) (hsends : ∀ x ∈ sends, x.Succeeds)
    (cs : List Chunk) :
    (∃ fuel, wp (clientLoop (cfg.answering answers) fuel) (fun _ _ => True)
      (accepted buf (cs.map Recv.data) sends)) ↔
    ∀ m, (∀ j < m, 0 ≤ (answers j).ret) →
      accepts answers m < (offeredLines cfg.BUF_SIZE [] cs).length →
      ∃ j, m ≤ j ∧ (answers j).ret ≠ 0 := by
  have hstart : Receives (cfg.answering answers) [] cs [] (accepted buf (cs.map Recv.data) sends) :=
    receives_accepted hbuf hsends
  rw [clientLoop_ends_iff hstart, ends_iff, List.length_nil]
  have hzero : accepts answers 0 = 0 := Nat.count_zero _
  constructor
  · intro h m hall hcount
    exact h m (Nat.zero_le m) (fun j _ hj => hall j hj) (by omega)
  · intro h m _ hall hcount
    exact h m (fun j hj => hall j (Nat.zero_le j) hj) (by omega)

section Answers

/-- One request of one letter. -/
def oneLine : List Chunk := [⟨[97, newline], by decide, by decide⟩]

/-- The theorem for a store that drops the client at once. -/
theorem handle_client_ends_dropped :
    (∃ fuel, wp (clientLoop (echoConfig.answering fun _ => ⟨-1, 0⟩) fuel) (fun _ _ => True)
      (accepted (List.replicate 512 0) (oneLine.map Recv.data) [.sent 1])) ↔
    ∀ m, (∀ j < m, 0 ≤ ((fun _ => ⟨-1, 0⟩ : ℕ → Served) j).ret) →
      accepts (fun _ => ⟨-1, 0⟩) m < (offeredLines echoConfig.BUF_SIZE [] oneLine).length →
      ∃ j, m ≤ j ∧ ((fun _ => ⟨-1, 0⟩ : ℕ → Served) j).ret ≠ 0 :=
  handle_client_ends echoConfig (fun _ => ⟨-1, 0⟩) _ List.length_replicate [.sent 1]
    (fun x hx => by cases hx with | head => exact Nat.one_pos | tail _ h => cases h) oneLine

/-- **The loop has no end.**  A store that answers 0 gets the same line again and again. -/
theorem handle_client_spins :
    ¬ ∃ fuel, wp (clientLoop (echoConfig.answering fun _ => ⟨0, 0⟩) fuel) (fun _ _ => True)
      (accepted (List.replicate 512 0) (oneLine.map Recv.data) []) := by
  have hstart : Receives (echoConfig.answering fun _ => ⟨0, 0⟩) [] oneLine []
      (accepted (List.replicate 512 0) (oneLine.map Recv.data) []) :=
    receives_accepted List.length_replicate fun _ h => by cases h
  rw [clientLoop_ends_iff hstart, ends_iff]
  intro h
  obtain ⟨j, _, hne⟩ :=
    h 0 (Nat.le_refl 0) (fun j _ hj => absurd hj (Nat.not_lt_zero j)) (by decide +kernel)
  exact hne rfl

end Answers

end SystemProgramming.Server
