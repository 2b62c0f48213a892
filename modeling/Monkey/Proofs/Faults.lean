import Monkey.Parse.Source

namespace Monkey

def Diagnostic.lexical? : Diagnostic → Option LexicalError
  | lexical e => some e
  | syntactic _ => none

namespace Parse

variable {α β : Type} {m n : Nat}

/-- The faults are found in the tokens and not in the characters. -/
def Syntactic (log : List Fault) : Prop :=
  ∀ fault ∈ log, fault.diagnostic.lexical? = none

theorem syntactic_nil : Syntactic [] :=
  fun _ h => absurd h List.not_mem_nil

theorem syntactic_singleton (error : SyntaxError) (unread : Nat) : Syntactic [⟨.syntactic error, unread⟩] :=
  List.forall_mem_singleton.2 rfl

theorem Syntactic.append {log log' : List Fault} (h : Syntactic log) (h' : Syntactic log') :
    Syntactic (log ++ log') :=
  List.forall_mem_append.2 ⟨h, h'⟩

theorem Syntactic.map {p : Attempt α n} (h : Syntactic p.log) (f : α → β) : Syntactic (p.map f).log := by
  obtain ⟨_ | _ | _, log, taken, short⟩ := p <;> exact h

theorem Syntactic.andThen {p : Attempt α m}
    {next : α → (rest : List Token) → rest.length ≤ m → Attempt β rest.length} {le : m ≤ n}
    (h : Syntactic p.log) (hnext : ∀ a rest hle, Syntactic (next a rest hle).log) :
    Syntactic (p.andThen next le).log := by
  obtain ⟨outcome, log, taken, short⟩ := p
  cases outcome with
  | done a rest => exact h.append (hnext a rest short)
  | refused rest | missing rest => exact h

theorem syntactic_expect {want : Kind} {ts : List Token}
    {next : Token → (rest : List Token) → rest.length < ts.length → Attempt α rest.length}
    (hnext : ∀ t rest hlt, Syntactic (next t rest hlt).log) : Syntactic (expect want ts next).log := by
  cases ts with
  | nil => exact syntactic_singleton _ _
  | cons t rest =>
    rw [expect]
    split
    · exact hnext t rest _
    · exact syntactic_singleton _ _

theorem Syntactic.orSkip {p : Attempt α n} (h : Syntactic p.log) : Syntactic p.orSkip.log := by
  obtain ⟨_ | _ | _, log, taken, short⟩ := p <;> exact h

theorem Syntactic.orResume {p : Attempt α n} (h : Syntactic p.log) : Syntactic p.orResume.log := by
  obtain ⟨_ | _ | _, log, taken, short⟩ := p <;> exact h

/-- Nothing new goes wrong after a phrase that is read to its end, apart from what comes after it. -/
theorem Syntactic.andTry {p : Reading α m}
    {next : α → (rest : List Token) → rest.length ≤ m → Attempt β rest.length} {le : m ≤ n}
    (h : Syntactic p.log) (hnext : ∀ a rest hle, Syntactic (next a rest hle).log) :
    Syntactic (p.andTry next le).log :=
  h.append (hnext p.value p.rest p.short)

theorem Syntactic.thenRead {p : Reading α m}
    {next : α → (rest : List Token) → rest.length ≤ m → Reading β rest.length} {le : m ≤ n}
    (h : Syntactic p.log) (hnext : ∀ a rest hle, Syntactic (next a rest hle).log) :
    Syntactic (p.andThen next le).log :=
  h.append (hnext p.value p.rest p.short)

theorem syntactic_moreParameters (ts : List Token) : Syntactic (moreParameters ts).log := by
  rw [moreParameters]
  split
  · exact syntactic_expect fun _ ts₁ _ => syntactic_expect fun _ ts₂ _ =>
      (syntactic_moreParameters ts₂).map _
  · exact syntactic_expect fun _ _ _ => syntactic_nil
termination_by ts.length

theorem syntactic_parameters (ts : List Token) : Syntactic (parameters ts).log := by
  rw [parameters]
  split
  · exact syntactic_nil
  · exact syntactic_expect fun _ rest _ => (syntactic_moreParameters rest).map _

theorem syntactic_ended (s : Stmt) (ts : List Token) : Syntactic (ended s ts).log := by
  rw [ended]
  split <;> exact syntactic_nil

mutual

theorem syntactic_expression (level : Level) (ts : List Token) : Syntactic (expression level ts).log := by
  rw [expression]
  exact (syntactic_operand ts).andThen fun left rest _ => syntactic_operators level left rest
termination_by (ts.length, 1)
decreasing_by all_goals (simp only [Prod.lex_def, true_and]; omega)

theorem syntactic_operand (ts : List Token) : Syntactic (operand ts).log := by
  cases ts with
  | nil =>
    rw [operand]
    exact syntactic_singleton _ _
  | cons t ts =>
    rw [operand]
    generalize t.kind = k
    cases k with
    | ident | string | trueWord | falseWord => exact syntactic_nil
    | int =>
      dsimp only
      split
      · exact syntactic_nil
      · exact syntactic_singleton _ _
    | bang | minus => exact (syntactic_expression .unary ts).andThen fun _ _ _ => syntactic_nil
    | parenL =>
      exact (syntactic_expression .lowest ts).andThen fun _ _ _ => syntactic_expect fun _ _ _ => syntactic_nil
    | ifWord =>
      refine syntactic_expect fun _ ts₁ _ => (syntactic_expression .lowest ts₁).andThen fun _ ts₂ _ =>
        syntactic_expect fun _ ts₃ _ => syntactic_expect fun _ ts₄ _ =>
          (syntactic_block ts₄).andTry fun _ ts₅ _ => ?_
      split
      · exact syntactic_expect fun _ ts₆ _ => syntactic_expect fun _ ts₇ _ =>
          (syntactic_block ts₇).andTry fun _ _ _ => syntactic_nil
      · exact syntactic_nil
    | fnWord =>
      exact syntactic_expect fun _ ts₁ _ => (syntactic_parameters ts₁).andThen fun _ ts₂ _ =>
        syntactic_expect fun _ ts₃ _ => (syntactic_block ts₃).andTry fun _ _ _ => syntactic_nil
    | bracketL => exact (syntactic_elements .bracketR ts).map _
    | braceL => exact (syntactic_entries ts).map _
    | _ => exact syntactic_singleton _ _
termination_by (ts.length, 0)
decreasing_by all_goals (simp only [Prod.lex_def, List.length_cons]; omega)

theorem syntactic_operators (level : Level) (left : Expr) (ts : List Token) :
    Syntactic (operators level left ts).log := by
  rw [operators]
  split
  · refine syntactic_expect fun op ts₁ h => ?_
    split
    · exact (syntactic_elements .parenR ts₁).andThen fun _ rest _ => syntactic_operators level _ rest
    · exact (syntactic_expression .lowest ts₁).andThen fun _ ts₂ _ =>
        syntactic_expect fun _ rest _ => syntactic_operators level _ rest
    · exact (syntactic_expression _ ts₁).andThen fun _ rest _ => syntactic_operators level _ rest
  · exact syntactic_nil
termination_by (ts.length, 0)
decreasing_by all_goals (simp only [Prod.lex_def]; omega)

theorem syntactic_elements (close : Kind) (ts : List Token) : Syntactic (elements close ts).log := by
  rw [elements]
  split
  · exact syntactic_nil
  · exact (syntactic_expression .lowest ts).andThen fun _ rest _ => (syntactic_moreElements close rest).map _
termination_by (ts.length, 2)
decreasing_by all_goals (simp only [Prod.lex_def, true_and]; omega)

theorem syntactic_moreElements (close : Kind) (ts : List Token) : Syntactic (moreElements close ts).log := by
  rw [moreElements]
  split
  · exact syntactic_expect fun _ ts₁ _ => (syntactic_expression .lowest ts₁).andThen fun _ rest _ =>
      (syntactic_moreElements close rest).map _
  · exact syntactic_expect fun _ _ _ => syntactic_nil
termination_by (ts.length, 0)
decreasing_by all_goals (simp only [Prod.lex_def]; omega)

theorem syntactic_entries (ts : List Token) : Syntactic (entries ts).log := by
  rw [entries]
  split
  · exact syntactic_nil
  · refine (syntactic_expression .lowest ts).andThen fun _ ts₁ _ => syntactic_expect fun _ ts₂ _ =>
      (syntactic_expression .lowest ts₂).andThen fun _ ts₃ _ => ?_
    split
    · exact syntactic_nil
    · exact syntactic_expect fun _ rest _ => (syntactic_entries rest).map _
termination_by (ts.length, 2)
decreasing_by all_goals (simp only [Prod.lex_def, true_and]; omega)

theorem syntactic_block (ts : List Token) : Syntactic (block ts).log := by
  cases ts with
  | nil =>
    rw [block]
    exact syntactic_singleton _ _
  | cons t ts =>
    rw [block]
    split
    · exact syntactic_nil
    · exact (syntactic_statement (t :: ts)).thenRead fun _ rest _ => syntactic_block rest
termination_by (ts.length, 3)
decreasing_by all_goals (simp only [Prod.lex_def, List.length_cons, true_and] at *; omega)

theorem syntactic_statement (ts : List Token) : Syntactic (statement ts).log := by
  cases ts with
  | nil =>
    rw [statement]
    exact ((syntactic_expression .lowest []).map _).orResume
  | cons t ts =>
    rw [statement]
    generalize t.kind = k
    cases k with
    | letWord =>
      exact Syntactic.orSkip (syntactic_expect fun _ ts₁ _ => syntactic_expect fun _ ts₂ _ =>
        (syntactic_expression .lowest ts₂).andThen fun _ rest _ => syntactic_ended _ rest)
    | returnWord =>
      exact Syntactic.orSkip
        ((syntactic_expression .lowest ts).andThen fun _ rest _ => syntactic_ended _ rest)
    | _ =>
      exact Syntactic.orResume ((syntactic_expression .lowest (t :: ts)).andThen fun _ rest _ =>
        syntactic_ended _ rest)
termination_by (ts.length, 2)
decreasing_by all_goals (simp only [Prod.lex_def, List.length_cons, true_and]; omega)

end

/-- What the parser itself finds wrong with a text is wrong with its tokens. -/
theorem syntactic_program (ts : List Token) : Syntactic (program ts).log := by
  cases ts with
  | nil =>
    rw [program]
    exact syntactic_nil
  | cons t ts =>
    rw [program]
    exact (syntactic_statement (t :: ts)).thenRead fun _ rest _ => syntactic_program rest
termination_by ts.length
decreasing_by simp only [List.length_cons] at *; omega

section merging

variable {f : α → Option β} (le : α → α → Bool) {as bs : List α}

/-- What is looked for in one of two lists only is found in what they are merged to, in the same order. -/
theorem filterMap_merge_left (hbs : ∀ b ∈ bs, f b = none) :
    (as.merge bs le).filterMap f = as.filterMap f := by
  induction as, bs using List.merge.induct le with
  | case1 bs => rw [List.merge, List.filterMap_eq_nil_iff.2 hbs, List.filterMap_nil]
  | case2 a as => rw [List.merge_right]
  | case3 a as b bs hle ih =>
    rw [List.cons_merge_cons, if_pos hle, List.filterMap_cons, List.filterMap_cons, ih hbs]
  | case4 a as b bs hle ih =>
    obtain ⟨hb, hbs⟩ := List.forall_mem_cons.1 hbs
    rw [List.cons_merge_cons, if_neg hle, List.filterMap_cons_none hb, ih hbs]

theorem filterMap_merge_right (has : ∀ a ∈ as, f a = none) :
    (as.merge bs le).filterMap f = bs.filterMap f := by
  induction as, bs using List.merge.induct le with
  | case1 bs => rw [List.merge]
  | case2 a as => rw [List.merge_right, List.filterMap_eq_nil_iff.2 has, List.filterMap_nil]
  | case3 a as b bs hle ih =>
    obtain ⟨ha, has⟩ := List.forall_mem_cons.1 has
    rw [List.cons_merge_cons, if_pos hle, List.filterMap_cons_none ha, ih has]
  | case4 a as b bs hle ih =>
    rw [List.cons_merge_cons, if_neg hle, List.filterMap_cons, List.filterMap_cons, ih has]

theorem filter_merge_left {p : α → Bool} (hbs : ∀ b ∈ bs, p b = false) :
    (as.merge bs le).filter p = as.filter p := by
  rw [← List.filterMap_eq_filter]
  refine filterMap_merge_left le fun b hb => ?_
  rw [Option.guard_eq_none_iff, hbs b hb]

end merging

/-- The errors among the items, in order. -/
def errorsOf (items : List Item) : List LexicalError :=
  items.filterMap fun
    | .error e => some e
    | .ok _ => none

theorem lexicalFaults_errors (ahead : Nat) (items : List Item) :
    (lexicalFaults ahead items).filterMap (·.diagnostic.lexical?) = errorsOf items ∧
      ∀ fault ∈ lexicalFaults ahead items, fault.diagnostic.lexical?.isSome := by
  induction items generalizing ahead with
  | nil => exact ⟨rfl, nofun⟩
  | cons item items ih =>
    cases item with
    | ok t => exact ih (ahead - 1)
    | error e =>
      obtain ⟨herrors, hall⟩ := ih ahead
      exact ⟨congrArg (e :: ·) herrors, List.forall_mem_cons.2 ⟨rfl, hall⟩⟩

/-- Among the diagnostics, those of the scanner and those of the parser stand in their own order. -/
theorem inOrder_parts {log : List Fault} (hlog : Syntactic log) (ahead : Nat) (items : List Item) :
    (inOrder log (lexicalFaults ahead items)).filterMap Diagnostic.lexical? = errorsOf items ∧
      (inOrder log (lexicalFaults ahead items)).filter (·.lexical?.isNone) = log.map (·.diagnostic) := by
  obtain ⟨herrors, hall⟩ := lexicalFaults_errors ahead items
  constructor
  · rw [inOrder, List.filterMap_map]
    exact (filterMap_merge_right _ hlog).trans herrors
  · have hkeep : ∀ fault ∈ log, fault.diagnostic.lexical?.isNone :=
      fun fault hfault => Option.isNone_iff_eq_none.2 (hlog fault hfault)
    have hdrop : ∀ fault ∈ lexicalFaults ahead items, fault.diagnostic.lexical?.isNone = false :=
      fun fault hfault => Option.isNone_eq_false_iff.2 (hall fault hfault)
    rw [inOrder, List.filter_map]
    exact congrArg _ ((filter_merge_left _ hdrop).trans (List.filter_eq_self.2 hkeep))

end Parse

end Monkey
