import Mathlib
import Monkey.Proofs.Agreement

namespace Monkey

namespace Parse

variable {α β : Type} {extra k m n : Nat} {ts : List Token}

def Outcome.left : Outcome α → List Token
  | done _ rest => rest
  | refused rest => rest
  | missing rest => rest

@[simp] theorem Outcome.left_done (a : α) : (done a ts).left = ts :=
  rfl

@[simp] theorem Outcome.left_refused : (refused ts : Outcome α).left = ts :=
  rfl

@[simp] theorem Outcome.left_missing : (missing ts : Outcome α).left = ts :=
  rfl

/-- Of `n` tokens no more than two steps are spent on each that is passed over, and `extra` steps besides. -/
def Attempt.Within (n extra : Nat) (p : Attempt α m) : Prop :=
  p.taken + 2 * p.outcome.left.length ≤ 2 * n + extra

/-- No step is spent, or one of those that may be is not. -/
def Attempt.Saves (n : Nat) (p : Attempt α m) : Prop :=
  p.taken = 0 ∧ p.outcome.left.length ≤ n ∨ p.taken + 1 + 2 * p.outcome.left.length ≤ 2 * n

def Reading.Within (n extra : Nat) (p : Reading α m) : Prop :=
  p.taken + 2 * p.rest.length ≤ 2 * n + extra

namespace Attempt

variable {p : Attempt α m}

theorem Saves.within (h : p.Saves n) : p.Within n 0 := by
  unfold Within
  rcases h with ⟨hnone, hle⟩ | hone <;> omega

theorem Saves.map (h : p.Saves n) (f : α → β) : (p.map f).Saves n := by
  obtain ⟨_ | _ | _, log, taken, short⟩ := p <;> exact h

section andThen

variable {next : α → (rest : List Token) → rest.length ≤ m → Attempt β rest.length} {le : m ≤ k}

theorem Saves.andThen (h : p.Saves n) (hnext : ∀ a rest hle, (next a rest hle).Saves rest.length) :
    (p.andThen next le).Saves n := by
  obtain ⟨outcome, log, taken, short⟩ := p
  cases outcome with
  | done a rest =>
    have hrest := hnext a rest short
    unfold Saves at h hrest ⊢
    simp only [Attempt.andThen, Outcome.left_done] at h ⊢
    omega
  | refused rest | missing rest => exact h

theorem Saves.andThenWithin (h : p.Saves n)
    (hnext : ∀ a rest hle, (next a rest hle).Within rest.length extra) : (p.andThen next le).Within n extra := by
  obtain ⟨outcome, log, taken, short⟩ := p
  have hwithin := h.within
  unfold Within at hwithin
  cases outcome with
  | done a rest =>
    have hrest := hnext a rest short
    unfold Within at hrest ⊢
    simp only [Attempt.andThen, Outcome.left_done] at hwithin ⊢
    omega
  | refused rest | missing rest => exact Nat.le_trans hwithin (Nat.le_add_right _ _)

end andThen

theorem Within.past (h : p.Within n 0) : p.past.Saves (n + 1) := by
  refine .inr ?_
  unfold Within at h
  dsimp only [Attempt.past]
  omega

theorem saves_done (a : α) : (Attempt.done a ts).Saves ts.length :=
  .inl ⟨rfl, Nat.le_refl _⟩

theorem saves_refused (e : SyntaxError) : (Attempt.refused e ts : Attempt α _).Saves ts.length :=
  .inl ⟨rfl, Nat.le_refl _⟩

theorem saves_doneWith {close : Kind} {a : α} (hfront : front ts = close)
    (hclose : close ≠ .eof := by decide) : (Attempt.doneWith a ts).Saves ts.length := by
  cases ts with
  | nil => exact absurd hfront.symm hclose
  | cons t ts =>
    refine .inr ?_
    simp only [doneWith, Outcome.left_done, List.tail_cons, List.length_cons]
    omega

end Attempt

section expecting

variable {want : Kind}
  {next : Token → (rest : List Token) → rest.length < ts.length → Attempt α rest.length}

theorem within_expect (hnext : ∀ t rest hlt, (next t rest hlt).Within rest.length (extra + 1)) :
    (expect want ts next).Within ts.length extra := by
  cases ts with
  | nil => exact Nat.zero_le _
  | cons t rest =>
    rw [expect]
    split
    · have hrest := hnext t rest (Nat.lt_succ_self _)
      unfold Attempt.Within at hrest ⊢
      dsimp only
      rw [List.length_cons]
      omega
    · unfold Attempt.Within
      simp only [Attempt.missing, Outcome.left_missing]
      omega

theorem saves_expect (hnext : ∀ t rest hlt, (next t rest hlt).Within rest.length 0) :
    (expect want ts next).Saves ts.length := by
  cases ts with
  | nil => exact .inl ⟨rfl, Nat.le_refl _⟩
  | cons t rest =>
    rw [expect]
    split
    · have hrest := hnext t rest (Nat.lt_succ_self _)
      refine .inr ?_
      unfold Attempt.Within at hrest
      dsimp only
      rw [List.length_cons]
      omega
    · exact .inl ⟨rfl, Nat.le_refl _⟩

end expecting

namespace Reading

theorem Within.andTry {p : Reading α m}
    {next : α → (rest : List Token) → rest.length ≤ m → Attempt β rest.length} {le : m ≤ k}
    (h : p.Within n extra) (hnext : ∀ a rest hle, (next a rest hle).Saves rest.length) :
    (p.andTry next le).Within n extra := by
  have hrest := (hnext p.value p.rest p.short).within
  unfold Within at h
  unfold Attempt.Within at hrest ⊢
  simp only [Reading.andTry]
  omega

theorem Within.andThen {p : Reading α m}
    {next : α → (rest : List Token) → rest.length ≤ m → Reading β rest.length} {le : m ≤ k}
    (h : p.Within n 0) (hnext : ∀ a rest hle, (next a rest hle).Within rest.length extra) :
    (p.andThen next le).Within n extra := by
  have hrest := hnext p.value p.rest p.short
  unfold Within at h hrest ⊢
  dsimp only [Reading.andThen]
  omega

end Reading

theorem Attempt.Saves.orResume {p : Attempt α m} (h : p.Saves n) (hn : 0 < n) : p.orResume.Within n 0 := by
  obtain ⟨outcome, log, taken, short⟩ := p
  have hwithin := h.within
  cases outcome with
  | done a rest | missing rest => exact hwithin
  | refused rest =>
    unfold Saves at h
    unfold Reading.Within
    simp only [Outcome.left_refused, Attempt.orResume] at h ⊢
    rw [List.length_tail]
    omega

/-- Each token that is skipped takes one step, and the end may take another one. -/
theorem length_afterSemicolon (ts : List Token) :
    (ts.takeWhile (·.kind ≠ .semicolon)).length + 2 * (afterSemicolon ts).length ≤ 2 * ts.length := by
  have hsplit := congrArg List.length (List.takeWhile_append_dropWhile (p := (·.kind ≠ .semicolon)) (l := ts))
  rw [List.length_append] at hsplit
  rw [afterSemicolon, List.length_tail]
  omega

theorem Attempt.Saves.orSkip {p : Attempt α m} (h : p.Saves n) : p.orSkip.past.Within (n + 1) 0 := by
  obtain ⟨outcome, log, taken, short⟩ := p
  have hwithin := h.within
  unfold Within at hwithin
  unfold Reading.Within
  cases outcome with
  | done a rest =>
    simp only [Outcome.left_done, Attempt.orSkip, Reading.past] at hwithin ⊢
    omega
  | refused rest | missing rest =>
    have hskipped := length_afterSemicolon rest
    simp only [Outcome.left_refused, Outcome.left_missing, Attempt.orSkip, Attempt.orSkip.skip,
      Reading.past] at hwithin ⊢
    omega

theorem saves_moreParameters (ts : List Token) : (moreParameters ts).Saves ts.length := by
  rw [moreParameters]
  split
  · exact saves_expect fun _ ts₁ _ => (saves_expect fun _ ts₂ _ =>
      ((saves_moreParameters ts₂).map _).within).within
  · exact saves_expect fun _ _ _ => (Attempt.saves_done []).within
termination_by ts.length

theorem saves_parameters (ts : List Token) : (parameters ts).Saves ts.length := by
  rw [parameters]
  split
  · next hclose => exact Attempt.saves_doneWith hclose
  · exact saves_expect fun _ rest _ => ((saves_moreParameters rest).map _).within

theorem saves_ended (s : Stmt) (ts : List Token) : (ended s ts).Saves ts.length := by
  rw [ended]
  split
  · next hsemicolon => exact Attempt.saves_doneWith hsemicolon
  · exact Attempt.saves_done s

mutual

theorem saves_expression (level : Level) (ts : List Token) : (expression level ts).Saves ts.length := by
  rw [expression]
  exact (saves_operand ts).andThen fun left rest _ => saves_operators level left rest
termination_by (ts.length, 1)
decreasing_by all_goals (simp only [Prod.lex_def, true_and]; omega)

theorem saves_operand (ts : List Token) : (operand ts).Saves ts.length := by
  cases ts with
  | nil =>
    rw [operand]
    exact Attempt.saves_refused _
  | cons t ts =>
    rw [operand]
    generalize t.kind = k
    cases k with
    | ident | string | trueWord | falseWord => exact (Attempt.saves_done _).within.past
    | int =>
      dsimp only
      split
      · exact (Attempt.saves_done _).within.past
      · exact Attempt.saves_refused _
    | bang | minus =>
      exact ((saves_expression .unary ts).andThen fun _ _ _ => Attempt.saves_done _).within.past
    | parenL =>
      exact ((saves_expression .lowest ts).andThen fun _ ts₁ _ =>
        saves_expect fun _ _ _ => (Attempt.saves_done _).within).within.past
    | ifWord =>
      refine Attempt.Within.past (saves_expect fun _ ts₁ _ => Attempt.Saves.within ?_).within
      refine (saves_expression .lowest ts₁).andThen fun _ ts₂ _ => saves_expect fun _ ts₃ _ => ?_
      -- what the block may spend too much is saved with its brace
      refine within_expect fun _ ts₄ _ => (within_block ts₄).andTry fun _ ts₅ _ => ?_
      split
      · exact saves_expect fun _ ts₆ _ => within_expect fun _ ts₇ _ =>
          (within_block ts₇).andTry fun _ _ _ => Attempt.saves_done _
      · exact Attempt.saves_done _
    | fnWord =>
      exact (saves_expect fun _ ts₁ _ => (saves_parameters ts₁).andThenWithin fun _ ts₂ _ =>
        within_expect fun _ ts₃ _ =>
          (within_block ts₃).andTry fun _ _ _ => Attempt.saves_done _).within.past
    | bracketL => exact ((saves_elements .bracketR ts).map _).within.past
    | braceL => exact ((saves_entries ts).map _).within.past
    | _ => exact Attempt.saves_refused _
termination_by (ts.length, 0)
decreasing_by all_goals (simp only [Prod.lex_def, List.length_cons]; omega)

theorem saves_operators (level : Level) (left : Expr) (ts : List Token) :
    (operators level left ts).Saves ts.length := by
  rw [operators]
  split
  · refine saves_expect fun op ts₁ h => Attempt.Saves.within ?_
    split
    · exact (saves_elements .parenR ts₁).andThen fun _ rest _ => saves_operators level _ rest
    · exact (saves_expression .lowest ts₁).andThen fun _ ts₂ _ =>
        saves_expect fun _ rest _ => (saves_operators level _ rest).within
    · exact (saves_expression _ ts₁).andThen fun _ rest _ => saves_operators level _ rest
  · exact Attempt.saves_done left
termination_by (ts.length, 0)
decreasing_by all_goals (simp only [Prod.lex_def]; omega)

theorem saves_elements (close : Kind) (ts : List Token) (hclose : close ≠ .eof := by decide) :
    (elements close ts).Saves ts.length := by
  rw [elements]
  split
  · next hfront => exact Attempt.saves_doneWith hfront hclose
  · exact (saves_expression .lowest ts).andThen fun _ rest _ => (saves_moreElements close rest).map _
termination_by (ts.length, 2)
decreasing_by all_goals (simp only [Prod.lex_def, true_and]; omega)

theorem saves_moreElements (close : Kind) (ts : List Token) : (moreElements close ts).Saves ts.length := by
  rw [moreElements]
  split
  · exact saves_expect fun _ ts₁ _ => ((saves_expression .lowest ts₁).andThen fun _ rest _ =>
      (saves_moreElements close rest).map _).within
  · exact saves_expect fun _ _ _ => (Attempt.saves_done []).within
termination_by (ts.length, 0)
decreasing_by all_goals (simp only [Prod.lex_def]; omega)

theorem saves_entries (ts : List Token) : (entries ts).Saves ts.length := by
  rw [entries]
  split
  · next hfront => exact Attempt.saves_doneWith hfront
  · refine (saves_expression .lowest ts).andThen fun _ ts₁ _ => saves_expect fun _ ts₂ _ =>
      Attempt.Saves.within ((saves_expression .lowest ts₂).andThen fun _ ts₃ _ => ?_)
    split
    · next hfront => exact Attempt.saves_doneWith hfront
    · exact saves_expect fun _ rest _ => ((saves_entries rest).map _).within
termination_by (ts.length, 2)
decreasing_by all_goals (simp only [Prod.lex_def, true_and]; omega)

theorem within_block (ts : List Token) : (block ts).Within ts.length 1 := by
  cases ts with
  | nil =>
    rw [block]
    exact Nat.le_refl _
  | cons t ts =>
    rw [block]
    split
    · unfold Reading.Within
      dsimp only
      rw [List.length_cons]
      omega
    · exact (within_statement t ts).andThen fun _ rest _ => within_block rest
termination_by (ts.length, 3)
decreasing_by all_goals (simp only [Prod.lex_def, List.length_cons, true_and] at *; omega)

theorem within_statement (t : Token) (ts : List Token) :
    (statement (t :: ts)).Within (t :: ts).length 0 := by
  rw [statement]
  generalize t.kind = k
  cases k with
  | letWord =>
    refine Attempt.Saves.orSkip (saves_expect fun _ ts₁ _ => Attempt.Saves.within ?_)
    refine saves_expect fun _ ts₂ _ => Attempt.Saves.within ?_
    exact (saves_expression .lowest ts₂).andThen fun _ rest _ => saves_ended _ rest
  | returnWord =>
    exact Attempt.Saves.orSkip ((saves_expression .lowest ts).andThen fun _ rest _ => saves_ended _ rest)
  | _ =>
    exact Attempt.Saves.orResume
      ((saves_expression .lowest (t :: ts)).andThen fun _ rest _ => saves_ended _ rest) (Nat.succ_pos _)
termination_by ((t :: ts).length, 2)
decreasing_by all_goals (simp only [Prod.lex_def, List.length_cons, true_and]; omega)

end

/-- A whole text takes two steps for each of its tokens. -/
theorem within_program (ts : List Token) : (program ts).Within ts.length 0 := by
  cases ts with
  | nil =>
    rw [program]
    exact Nat.le_refl _
  | cons t ts =>
    rw [program]
    exact (within_statement t ts).andThen fun _ rest _ => within_program rest
termination_by ts.length
decreasing_by simp only [List.length_cons] at *; omega

end Parse

/-- Parsing always ends, whatever the text is. The parser is at the end then, and has found the program and
the diagnostics of the text. From its creation on it has asked for a token no more than twice for each that
there is, and four times besides. -/
theorem parsing_ends (source : String) (depth : Nat)
    (hdepth : 4 * (Parse.tokensOf (itemsOf source)).length + 4 ≤ depth) :
    ∃ s, Parser.text depth (.ofText source) = some (some (parse source).program, s) ∧
      s.current.kind = .eof ∧ s.errors = (parse source).diagnostics ∧
      s.calls ≤ 2 * (Parse.tokensOf (itemsOf source)).length + 4 := by
  obtain ⟨s, htext, hreports, hat⟩ := Parser.completes_text source hdepth
  refine ⟨s, htext, hat.shows, ?_, ?_⟩
  · have hnone : Parse.inOrder [] (Parse.lexicalFaults 0 []) = [] := by
      rw [Parse.inOrder, Parse.lexicalFaults, List.nil_merge]
      rfl
    have herrors := hreports.errors [] (List.forall_mem_nil _)
    have hend : s.outlook [] = s.errors := by
      rw [Parser.outlook, hat.tail.ends rfl]
      exact (congrArg _ hnone).trans (List.append_nil _)
    rw [hend, List.append_nil] at herrors
    exact herrors
  · have hcalls := hat.tail.calls
    have hwithin := Parse.within_program (Parse.tokensOf (itemsOf source))
    unfold Parse.Reading.Within at hwithin
    omega

theorem parsing_ends_of_brace :
    let source := "let a = [fn(b) \x7b if (1 @ \"c"
    (Parse.tokensOf (itemsOf source)).length = 12 ∧
      ∃ s, Parser.text 52 (.ofText source) = some (some (parse source).program, s) ∧ s.current.kind = .eof ∧
        s.errors = [.lexical (.unexpectedCharacter ⟨1, 24⟩ '@'), .lexical (.unterminatedString ⟨1, 26⟩),
          .syntactic (.unexpected .parenR .eof), .syntactic (.unexpected .braceR .eof),
          .syntactic (.unexpected .bracketR .eof)] ∧
        s.calls ≤ 28 := by
  intro source
  have hlength : (Parse.tokensOf (itemsOf source)).length = 12 := by
    dsimp only [source]
    cbv
  obtain ⟨s, htext, hend, herrors, hcalls⟩ := parsing_ends source 52 (by rw [hlength])
  rw [hlength] at hcalls
  refine ⟨hlength, s, htext, hend, ?_, hcalls⟩
  rw [herrors]
  dsimp only [source]
  cbv

end Monkey
