import Monkey.Parse.Grammar
import Monkey.Proofs.Bare

namespace Monkey.Parse

variable {α β α' β' : Type} {m m' n n' : Nat}

theorem front_bare (ts : List Token) : front (ts.map .bare) = front ts := by
  cases ts <;> rfl

/-- The outcome apart from where the tokens stand, when `f` makes the same of what was read. -/
def Outcome.bare (f : α → β) : Outcome α → Outcome β
  | done a rest => done (f a) (rest.map .bare)
  | refused rest => refused (rest.map .bare)
  | missing rest => missing (rest.map .bare)

namespace Attempt

/-- The second attempt does with bare tokens what the first does with tokens in their places. -/
def Alike (f : α → β) (p : Attempt α m) (q : Attempt β n) : Prop :=
  q.outcome = p.outcome.bare f ∧ q.log = p.log ∧ q.taken = p.taken

variable {f : α → α'} {g : β → β'}

theorem alike_done {a : α} {a' : α'} (h : a' = f a) (ts : List Token) :
    Alike f (done a ts) (done a' (ts.map .bare)) := by
  subst h
  exact ⟨rfl, rfl, rfl⟩

theorem alike_doneWith {a : α} {a' : α'} (h : a' = f a) (ts : List Token) :
    Alike f (doneWith a ts) (doneWith a' (ts.map .bare)) := by
  subst h
  refine ⟨?_, rfl, rfl⟩
  simp only [doneWith, Outcome.bare, List.map_tail]

theorem alike_refused (f : α → α') (error : SyntaxError) (ts : List Token) :
    Alike f (refused error ts) (refused error (ts.map .bare)) := by
  refine ⟨rfl, ?_, rfl⟩
  simp only [refused, List.length_map]

theorem alike_missing (f : α → α') (want : Kind) (ts : List Token) :
    Alike f (missing want ts) (missing want (ts.map .bare)) := by
  refine ⟨rfl, ?_, rfl⟩
  simp only [missing, List.length_map, front_bare]

theorem Alike.past {p : Attempt α m} {q : Attempt α' n} (h : Alike f p q) : Alike f p.past q.past :=
  ⟨h.1, h.2.1, congrArg (· + 1) h.2.2⟩

theorem Alike.map {p : Attempt α m} {q : Attempt α' n} {k : α → β} {k' : α' → β'} (h : Alike f p q)
    (hk : ∀ a, k' (f a) = g (k a)) : Alike g (p.map k) (q.map k') := by
  obtain ⟨outcome, log, taken, short⟩ := p
  obtain ⟨outcome', log', taken', short'⟩ := q
  obtain ⟨houtcome, hlog, htaken⟩ := h
  dsimp only at houtcome hlog htaken
  subst houtcome hlog htaken
  cases outcome with
  | done a rest => exact ⟨congrArg (Outcome.done · _) (hk a), rfl, rfl⟩
  | refused rest | missing rest => exact ⟨rfl, rfl, rfl⟩

theorem Alike.andThen {p : Attempt α m} {q : Attempt α' m'}
    {next : α → (rest : List Token) → rest.length ≤ m → Attempt β rest.length}
    {next' : α' → (rest : List Token) → rest.length ≤ m' → Attempt β' rest.length}
    {le : m ≤ n} {le' : m' ≤ n'} (h : Alike f p q)
    (hnext : ∀ a rest hle hle', Alike g (next a rest hle) (next' (f a) (rest.map .bare) hle')) :
    Alike g (p.andThen next le) (q.andThen next' le') := by
  obtain ⟨outcome, log, taken, short⟩ := p
  obtain ⟨outcome', log', taken', short'⟩ := q
  obtain ⟨houtcome, hlog, htaken⟩ := h
  dsimp only at houtcome hlog htaken
  subst houtcome hlog htaken
  cases outcome with
  | done a rest =>
    obtain ⟨houtcome, hlog, htaken⟩ := hnext a rest short short'
    exact ⟨houtcome, congrArg (_ ++ ·) hlog, congrArg (_ + ·) htaken⟩
  | refused rest | missing rest => exact ⟨rfl, rfl, rfl⟩

end Attempt

theorem alike_expect {f : α → α'} (want : Kind) (ts : List Token)
    {next : Token → (rest : List Token) → rest.length < ts.length → Attempt α rest.length}
    {next' : Token → (rest : List Token) → rest.length < (ts.map Token.bare).length →
      Attempt α' rest.length}
    (hnext : ∀ t rest hlt hlt',
      Attempt.Alike f (next t rest hlt) (next' t.bare (rest.map .bare) hlt')) :
    Attempt.Alike f (expect want ts next) (expect want (ts.map .bare) next') := by
  cases ts with
  | nil => exact Attempt.alike_missing f want []
  | cons t rest =>
    change Attempt.Alike f (expect want (t :: rest) next)
      (expect want (t.bare :: rest.map .bare) next')
    by_cases hk : t.kind = want
    · have hk' : t.bare.kind = want := hk
      rw [expect, if_pos hk, expect, if_pos hk']
      have h := hnext t rest (Nat.lt_succ_self _) (Nat.lt_succ_self _)
      exact ⟨h.1, h.2.1, congrArg (· + 1) h.2.2⟩
    · have hk' : t.bare.kind ≠ want := hk
      rw [expect, if_neg hk, expect, if_neg hk']
      exact Attempt.alike_missing f want (t :: rest)

namespace Reading

/-- The second reading does with bare tokens what the first does with tokens in their places. -/
def Alike (f : α → β) (p : Reading α m) (q : Reading β n) : Prop :=
  q.value = f p.value ∧ q.rest = p.rest.map .bare ∧ q.log = p.log ∧ q.taken = p.taken

variable {f : α → α'} {g : β → β'}

theorem Alike.past {p : Reading α m} {q : Reading α' n} (h : Alike f p q) : Alike f p.past q.past :=
  ⟨h.1, h.2.1, h.2.2.1, congrArg (· + 1) h.2.2.2⟩

theorem Alike.map {p : Reading α m} {q : Reading α' n} {k : α → β} {k' : α' → β'} (h : Alike f p q)
    (hk : ∀ a, k' (f a) = g (k a)) : Alike g (p.map k) (q.map k') :=
  ⟨(congrArg k' h.1).trans (hk p.value), h.2⟩

theorem Alike.andThen {p : Reading α m} {q : Reading α' m'}
    {next : α → (rest : List Token) → rest.length ≤ m → Reading β rest.length}
    {next' : α' → (rest : List Token) → rest.length ≤ m' → Reading β' rest.length}
    {le : m ≤ n} {le' : m' ≤ n'} (h : Alike f p q)
    (hnext : ∀ a rest hle hle', Alike g (next a rest hle) (next' (f a) (rest.map .bare) hle')) :
    Alike g (p.andThen next le) (q.andThen next' le') := by
  obtain ⟨value, rest, log, taken, short⟩ := p
  obtain ⟨value', rest', log', taken', short'⟩ := q
  obtain ⟨hvalue, hrest, hlog, htaken⟩ := h
  dsimp only at hvalue hrest hlog htaken
  subst hvalue hrest hlog htaken
  obtain ⟨hvalue, hrest, hlog, htaken⟩ := hnext value rest short short'
  exact ⟨hvalue, hrest, congrArg (_ ++ ·) hlog, congrArg (_ + ·) htaken⟩

theorem Alike.andTry {p : Reading α m} {q : Reading α' m'}
    {next : α → (rest : List Token) → rest.length ≤ m → Attempt β rest.length}
    {next' : α' → (rest : List Token) → rest.length ≤ m' → Attempt β' rest.length}
    {le : m ≤ n} {le' : m' ≤ n'} (h : Alike f p q)
    (hnext : ∀ a rest hle hle', Attempt.Alike g (next a rest hle) (next' (f a) (rest.map .bare) hle')) :
    Attempt.Alike g (p.andTry next le) (q.andTry next' le') := by
  obtain ⟨value, rest, log, taken, short⟩ := p
  obtain ⟨value', rest', log', taken', short'⟩ := q
  obtain ⟨hvalue, hrest, hlog, htaken⟩ := h
  dsimp only at hvalue hrest hlog htaken
  subst hvalue hrest hlog htaken
  obtain ⟨houtcome, hlog, htaken⟩ := hnext value rest short short'
  exact ⟨houtcome, congrArg (_ ++ ·) hlog, congrArg (_ + ·) htaken⟩

end Reading

theorem afterSemicolon_bare (ts : List Token) :
    afterSemicolon (ts.map .bare) = (afterSemicolon ts).map .bare := by
  simp only [afterSemicolon, List.dropWhile_map, List.map_tail]
  rfl

namespace Attempt

variable {f : α → α'}

theorem Alike.orSkip {p : Attempt α m} {q : Attempt α' n} (h : Alike f p q) :
    Reading.Alike (Option.map f) p.orSkip q.orSkip := by
  obtain ⟨outcome, log, taken, short⟩ := p
  obtain ⟨outcome', log', taken', short'⟩ := q
  obtain ⟨houtcome, hlog, htaken⟩ := h
  dsimp only at houtcome hlog htaken
  subst houtcome hlog htaken
  cases outcome with
  | done a rest => exact ⟨rfl, rfl, rfl, rfl⟩
  | refused rest | missing rest =>
    refine ⟨rfl, afterSemicolon_bare rest, rfl, ?_⟩
    simp only [Outcome.bare, Attempt.orSkip, orSkip.skip, List.takeWhile_map, List.length_map]
    rfl

theorem Alike.orResume {p : Attempt α m} {q : Attempt α' n} (h : Alike f p q) :
    Reading.Alike (Option.map f) p.orResume q.orResume := by
  obtain ⟨outcome, log, taken, short⟩ := p
  obtain ⟨outcome', log', taken', short'⟩ := q
  obtain ⟨houtcome, hlog, htaken⟩ := h
  dsimp only at houtcome hlog htaken
  subst houtcome hlog htaken
  cases outcome with
  | done a rest => exact ⟨rfl, rfl, rfl, rfl⟩
  | refused rest => exact ⟨rfl, List.map_tail.symm, rfl, rfl⟩
  | missing rest => exact ⟨rfl, rfl, rfl, rfl⟩

end Attempt

open Attempt

theorem alike_moreParameters (ts : List Token) :
    Alike (List.map Ident.bare) (moreParameters ts) (moreParameters (ts.map .bare)) := by
  rw [moreParameters, moreParameters, front_bare]
  split
  · exact alike_expect _ _ fun _ ts₁ _ _ => alike_expect _ _ fun name ts₂ _ _ =>
      (alike_moreParameters ts₂).map fun names => rfl
  · exact alike_expect _ _ fun _ rest _ _ => alike_done rfl rest
termination_by ts.length

theorem alike_parameters (ts : List Token) :
    Alike (List.map Ident.bare) (parameters ts) (parameters (ts.map .bare)) := by
  rw [parameters, parameters, front_bare]
  split
  · exact alike_doneWith rfl ts
  · exact alike_expect _ _ fun name rest _ _ => (alike_moreParameters rest).map fun names => rfl

theorem alike_ended (s : Stmt) (ts : List Token) :
    Alike Stmt.bare (ended s ts) (ended s.bare (ts.map .bare)) := by
  rw [ended, ended, front_bare]
  split
  · exact alike_doneWith rfl ts
  · exact alike_done rfl ts

mutual

theorem alike_expression (level : Level) (ts : List Token) :
    Alike Expr.bare (expression level ts) (expression level (ts.map .bare)) := by
  rw [expression, expression]
  exact (alike_operand ts).andThen fun left rest _ _ => alike_operators level left rest
termination_by (ts.length, 1)
decreasing_by all_goals (simp only [Prod.lex_def, true_and]; omega)

theorem alike_operand (ts : List Token) :
    Alike Expr.bare (operand ts) (operand (ts.map .bare)) := by
  cases ts with
  | nil =>
    rw [List.map_nil, operand]
    exact alike_refused _ _ []
  | cons t ts =>
    have hkind : t.bare.kind = t.kind := rfl
    have htext : t.bare.text = t.text := rfl
    rw [List.map_cons, operand, operand, hkind, htext]
    generalize t.kind = k
    cases k with
    | ident | string | trueWord | falseWord => exact Alike.past (alike_done rfl ts)
    | int =>
      dsimp only
      split
      · exact Alike.past (alike_done rfl ts)
      · exact alike_refused _ _ (t :: ts)
    | bang | minus =>
      exact ((alike_expression .unary ts).andThen fun right rest _ _ => alike_done rfl rest).past
    | parenL =>
      exact ((alike_expression .lowest ts).andThen fun e ts₁ _ _ =>
        alike_expect _ _ fun _ rest _ _ => alike_done rfl rest).past
    | ifWord =>
      refine Alike.past (alike_expect _ _ fun _ ts₁ _ _ =>
        (alike_expression .lowest ts₁).andThen fun test ts₂ _ _ =>
          alike_expect _ _ fun _ ts₃ _ _ => alike_expect _ _ fun _ ts₄ _ _ =>
            (alike_block ts₄).andTry fun yes ts₅ _ _ => ?_)
      -- both look for the same word before the second block
      rw [front_bare]
      split
      · exact alike_expect _ _ fun _ ts₆ _ _ => alike_expect _ _ fun _ ts₇ _ _ =>
          (alike_block ts₇).andTry fun no rest _ _ => alike_done rfl rest
      · exact alike_done rfl ts₅
    | fnWord =>
      exact Alike.past (alike_expect _ _ fun _ ts₁ _ _ =>
        (alike_parameters ts₁).andThen fun params ts₂ _ _ =>
          alike_expect _ _ fun _ ts₃ _ _ =>
            (alike_block ts₃).andTry fun body rest _ _ => alike_done rfl rest)
    | bracketL => exact Alike.past ((alike_elements .bracketR ts).map fun es => rfl)
    | braceL => exact Alike.past ((alike_entries ts).map fun pairs => rfl)
    | _ => exact alike_refused _ _ (t :: ts)
termination_by (ts.length, 0)
decreasing_by all_goals (simp only [Prod.lex_def, List.length_cons]; omega)

theorem alike_operators (level : Level) (left : Expr) (ts : List Token) :
    Alike Expr.bare (operators level left ts) (operators level left.bare (ts.map .bare)) := by
  rw [operators, operators, front_bare]
  split
  · refine alike_expect _ _ fun op ts₁ h _ => ?_
    have hkind : op.bare.kind = op.kind := rfl
    rw [hkind]
    -- the operator is of one kind in both, and only its kind decides what comes after it
    generalize op.kind = k
    cases k with
    | parenL =>
      exact (alike_elements .parenR ts₁).andThen fun args rest _ _ => alike_operators level _ rest
    | bracketL =>
      exact (alike_expression .lowest ts₁).andThen fun index ts₂ _ _ =>
        alike_expect _ _ fun _ rest _ _ => alike_operators level _ rest
    | _ =>
      exact (alike_expression _ ts₁).andThen fun right rest _ _ => alike_operators level _ rest
  · exact alike_done rfl ts
termination_by (ts.length, 0)
decreasing_by all_goals (simp only [Prod.lex_def]; omega)

theorem alike_elements (close : Kind) (ts : List Token) :
    Alike bareAll (elements close ts) (elements close (ts.map .bare)) := by
  rw [elements, elements, front_bare]
  split
  · exact alike_doneWith rfl ts
  · exact (alike_expression .lowest ts).andThen fun e rest _ _ =>
      (alike_moreElements close rest).map fun es => rfl
termination_by (ts.length, 2)
decreasing_by all_goals (simp only [Prod.lex_def, true_and]; omega)

theorem alike_moreElements (close : Kind) (ts : List Token) :
    Alike bareAll (moreElements close ts) (moreElements close (ts.map .bare)) := by
  rw [moreElements, moreElements, front_bare]
  split
  · exact alike_expect _ _ fun _ ts₁ _ _ => (alike_expression .lowest ts₁).andThen fun e rest _ _ =>
      (alike_moreElements close rest).map fun es => rfl
  · exact alike_expect _ _ fun _ rest _ _ => alike_done rfl rest
termination_by (ts.length, 0)
decreasing_by all_goals (simp only [Prod.lex_def]; omega)

theorem alike_entries (ts : List Token) :
    Alike barePairs (entries ts) (entries (ts.map .bare)) := by
  rw [entries, entries, front_bare]
  split
  · exact alike_doneWith rfl ts
  · refine (alike_expression .lowest ts).andThen fun key ts₁ _ _ => alike_expect _ _ fun _ ts₂ _ _ =>
      (alike_expression .lowest ts₂).andThen fun value ts₃ _ _ => ?_
    rw [front_bare]
    split
    · exact alike_doneWith rfl ts₃
    · exact alike_expect _ _ fun _ rest _ _ => (alike_entries rest).map fun pairs => rfl
termination_by (ts.length, 2)
decreasing_by all_goals (simp only [Prod.lex_def, true_and]; omega)

theorem alike_block (ts : List Token) :
    Reading.Alike bareStmts (block ts) (block (ts.map .bare)) := by
  cases ts with
  | nil =>
    rw [List.map_nil, block]
    exact ⟨rfl, rfl, rfl, rfl⟩
  | cons t ts =>
    have hkind : t.bare.kind = t.kind := rfl
    rw [List.map_cons, block, block, hkind]
    split
    · exact ⟨rfl, rfl, rfl, rfl⟩
    · refine (alike_statement (t :: ts)).andThen fun s rest _ _ => (alike_block rest).map fun stmts => ?_
      cases s <;> rfl
termination_by (ts.length, 3)
decreasing_by all_goals (simp only [Prod.lex_def, List.length_cons, true_and] at *; omega)

theorem alike_statement (ts : List Token) :
    Reading.Alike (Option.map Stmt.bare) (statement ts) (statement (ts.map .bare)) := by
  cases ts with
  | nil =>
    rw [List.map_nil, statement]
    refine Alike.orResume ?_
    exact (alike_expression .lowest []).map fun value => rfl
  | cons t ts =>
    have hkind : t.bare.kind = t.kind := rfl
    rw [List.map_cons, statement, statement, hkind]
    generalize t.kind = k
    cases k with
    | letWord =>
      exact (Alike.orSkip (alike_expect _ _ fun name ts₁ _ _ => alike_expect _ _ fun _ ts₂ _ _ =>
        (alike_expression .lowest ts₂).andThen fun value rest _ _ => alike_ended _ rest)).past
    | returnWord =>
      exact (Alike.orSkip ((alike_expression .lowest ts).andThen fun value rest _ _ =>
        alike_ended _ rest)).past
    | _ =>
      exact Alike.orResume ((alike_expression .lowest (t :: ts)).andThen fun value rest _ _ =>
        alike_ended _ rest)
termination_by (ts.length, 2)
decreasing_by all_goals (simp only [Prod.lex_def, List.length_cons, true_and]; omega)

end

/-- What is read, and what is wrong with it, does not depend on the places of the tokens. -/
theorem alike_program (ts : List Token) :
    Reading.Alike bareStmts (program ts) (program (ts.map .bare)) := by
  cases ts with
  | nil =>
    rw [List.map_nil, program]
    exact ⟨rfl, rfl, rfl, rfl⟩
  | cons t ts =>
    rw [List.map_cons, program, program]
    refine (alike_statement (t :: ts)).andThen fun s rest _ _ => (alike_program rest).map fun stmts => ?_
    cases s <;> rfl
termination_by ts.length
decreasing_by simp only [List.length_cons] at *; omega

end Monkey.Parse
