import Monkey.Proofs.Lines

namespace Monkey

namespace Parse

variable {α β : Type} {m n : Nat}

/-- The attempt ends with one error, and `us` is left of the tokens. -/
def Attempt.Fails (p : Attempt α n) (error : SyntaxError) (us : List Token) : Prop :=
  p.log.map (·.diagnostic) = [.syntactic error] ∧ (p.outcome = .refused us ∨ p.outcome = .missing us)

section failing

variable {p : Attempt α m} {error : SyntaxError} {ts us : List Token}

theorem Attempt.Fails.andThen (h : p.Fails error us)
    {next : α → (rest : List Token) → rest.length ≤ m → Attempt β rest.length} {le : m ≤ n} :
    (p.andThen next le).Fails error us := by
  obtain ⟨outcome, log, taken, short⟩ := p
  obtain ⟨hlog, houtcome⟩ := h
  dsimp only at hlog houtcome
  rcases houtcome with rfl | rfl
  · exact ⟨hlog, .inl rfl⟩
  · exact ⟨hlog, .inr rfl⟩

/-- What is left after it is what comes after the next semicolon. -/
theorem Attempt.Fails.orSkip (h : p.Fails error us) :
    p.orSkip.value = none ∧ p.orSkip.rest = afterSemicolon us ∧
      p.orSkip.log.map (·.diagnostic) = [.syntactic error] := by
  obtain ⟨outcome, log, taken, short⟩ := p
  obtain ⟨hlog, houtcome⟩ := h
  dsimp only at hlog houtcome
  rcases houtcome with rfl | rfl
  · exact ⟨rfl, rfl, hlog⟩
  · exact ⟨rfl, rfl, hlog⟩

variable {want : Kind}
  {next : Token → (rest : List Token) → rest.length < ts.length → Attempt α rest.length}

theorem expect_fails (h : front ts ≠ want) : (expect want ts next).Fails (.unexpected want (front ts)) ts := by
  cases ts with
  | nil => exact ⟨rfl, .inr rfl⟩
  | cons t ts =>
    rw [front_cons] at h
    rw [expect, if_neg h]
    exact ⟨rfl, .inr rfl⟩

theorem expect_cons_fails {t : Token}
    {next : Token → (rest : List Token) → rest.length < (t :: ts).length → Attempt α rest.length}
    (ht : t.kind = want) (h : (next t ts (Nat.lt_succ_self _)).Fails error us) :
    (expect want (t :: ts) next).Fails error us := by
  rw [expect, if_pos ht]
  exact h

theorem operand_fails (h : front ts ∉ starters) : (operand ts).Fails (.noOperand (front ts)) ts := by
  cases ts with
  | nil =>
    rw [operand]
    exact ⟨rfl, .inl rfl⟩
  | cons t ts =>
    rw [front_cons] at h ⊢
    rw [operand]
    generalize t.kind = k at h ⊢
    cases k
    all_goals first
      | exact ⟨rfl, .inl rfl⟩
      | exact absurd (by decide) h

theorem expression_fails (level : Level) (h : front ts ∉ starters) :
    (expression level ts).Fails (.noOperand (front ts)) ts := by
  rw [expression]
  exact (operand_fails h).andThen

end failing

/-- How a statement is malformed from its beginning, with the error that tells of it. -/
inductive Malformed : List Token → SyntaxError → Prop
  | name {word : Token} {ts : List Token} : word.kind = .letWord → front ts ≠ .ident →
    Malformed (word :: ts) (.unexpected .ident (front ts))
  | assign {word name : Token} {ts : List Token} : word.kind = .letWord → name.kind = .ident →
    front ts ≠ .assign → Malformed (word :: name :: ts) (.unexpected .assign (front ts))
  | value {word name assign : Token} {ts : List Token} : word.kind = .letWord → name.kind = .ident →
    assign.kind = .assign → front ts ∉ starters →
    Malformed (word :: name :: assign :: ts) (.noOperand (front ts))
  | result {word : Token} {ts : List Token} : word.kind = .returnWord → front ts ∉ starters →
    Malformed (word :: ts) (.noOperand (front ts))

theorem Malformed.bare {ts : List Token} {error : SyntaxError} (h : Malformed ts error) :
    Malformed (ts.map .bare) error := by
  cases h with
  | @name word ts hword hts =>
    rw [← front_bare ts] at hts ⊢
    exact .name hword hts
  | @assign word name ts hword hname hts =>
    rw [← front_bare ts] at hts ⊢
    exact .assign hword hname hts
  | @value word name assign ts hword hname hassign hts =>
    rw [← front_bare ts] at hts ⊢
    exact .value hword hname hassign hts
  | @result word ts hword hts =>
    rw [← front_bare ts] at hts ⊢
    exact .result hword hts

/-- What comes after the last semicolon does not matter. -/
theorem Malformed.append {ts : List Token} {error : SyntaxError} (h : Malformed ts error)
    (hlast : ∀ t ∈ ts.getLast?, t.kind = .semicolon) (vs : List Token) : Malformed (ts ++ vs) error := by
  have hfront {t : Token} {rest : List Token} (ht : t.kind ≠ .semicolon)
      (hrest : ∀ t' ∈ (t :: rest).getLast?, t'.kind = .semicolon) : front (rest ++ vs) = front rest := by
    cases rest with
    | nil => exact absurd (hrest t rfl) ht
    | cons t' rest => rfl
  cases h with
  | @name word rest hword hrest =>
    rw [← hfront (t := word) (by rw [hword]; decide) hlast] at hrest ⊢
    exact .name hword hrest
  | @assign word name rest hword hname hrest =>
    rw [← hfront (t := name) (by rw [hname]; decide) hlast] at hrest ⊢
    exact .assign hword hname hrest
  | @value word name assign rest hword hname hassign hrest =>
    rw [← hfront (t := assign) (by rw [hassign]; decide) hlast] at hrest ⊢
    exact .value hword hname hassign hrest
  | @result word rest hword hrest =>
    rw [← hfront (t := word) (by rw [hword]; decide) hlast] at hrest ⊢
    exact .result hword hrest

theorem afterSemicolon_cons {t : Token} (ht : t.kind ≠ .semicolon) (ts : List Token) :
    afterSemicolon (t :: ts) = afterSemicolon ts := by
  rw [afterSemicolon, List.dropWhile_cons_of_pos]
  · rfl
  · exact decide_eq_true ht

theorem afterSemicolon_append {ts : List Token} {semicolon : Token} (hts : ∀ t ∈ ts, t.kind ≠ .semicolon)
    (hsemicolon : semicolon.kind = .semicolon) (vs : List Token) :
    afterSemicolon (ts ++ semicolon :: vs) = vs := by
  induction ts with
  | nil =>
    rw [List.nil_append, afterSemicolon, List.dropWhile_cons_of_neg (by simp [hsemicolon]), List.tail_cons]
  | cons t ts ih =>
    obtain ⟨ht, hts⟩ := List.forall_mem_cons.1 hts
    rw [List.cons_append, afterSemicolon_cons ht, ih hts]

/-- Wherever the statement fails, it is given up to the same semicolon. -/
theorem Malformed.statement_fails {ts : List Token} {error : SyntaxError} (h : Malformed ts error) :
    (statement ts).value = none ∧ (statement ts).rest = afterSemicolon ts ∧
      (statement ts).log.map (·.diagnostic) = [.syntactic error] := by
  cases h with
  | @name word rest hword hrest =>
    rw [statement, afterSemicolon_cons (by rw [hword]; decide)]
    simp only [hword]
    exact (expect_fails hrest).orSkip
  | @assign word name rest hword hname hrest =>
    rw [statement, afterSemicolon_cons (by rw [hword]; decide), afterSemicolon_cons (by rw [hname]; decide)]
    simp only [hword]
    exact (expect_cons_fails hname (expect_fails hrest)).orSkip
  | @value word name assign rest hword hname hassign hrest =>
    rw [statement, afterSemicolon_cons (by rw [hword]; decide), afterSemicolon_cons (by rw [hname]; decide),
      afterSemicolon_cons (by rw [hassign]; decide)]
    simp only [hword]
    refine (expect_cons_fails hname (expect_cons_fails hassign ?_)).orSkip
    exact (expression_fails .lowest hrest).andThen
  | @result word rest hword hrest =>
    rw [statement, afterSemicolon_cons (by rw [hword]; decide)]
    simp only [hword]
    exact (expression_fails .lowest hrest).andThen.orSkip

/-- These tokens give these statements and errors, whatever comes after them, and are then out of account. -/
def Recovers (us : List Token) (stmts : List Stmt) (errors : List SyntaxError) : Prop :=
  ∀ vs, (program (us ++ vs)).value = stmts ++ (program vs).value ∧
    (program (us ++ vs)).log.map (·.diagnostic) =
      errors.map .syntactic ++ (program vs).log.map (·.diagnostic)

theorem recovers_nil : Recovers [] [] [] :=
  fun _ => ⟨rfl, rfl⟩

theorem Recovers.append {us us' : List Token} {stmts stmts' : List Stmt} {errors errors' : List SyntaxError}
    (h : Recovers us stmts errors) (h' : Recovers us' stmts' errors') :
    Recovers (us ++ us') (stmts ++ stmts') (errors ++ errors') := by
  intro vs
  obtain ⟨hvalue, hlog⟩ := h (us' ++ vs)
  obtain ⟨hvalue', hlog'⟩ := h' vs
  rw [List.append_assoc, hvalue, hlog, hvalue', hlog', List.map_append, List.append_assoc, List.append_assoc]
  exact ⟨rfl, rfl⟩

/-- One statement, after which the tokens of `us` are left. -/
theorem recovers_of_statement {ts us : List Token} {stmts : List Stmt} {errors : List SyntaxError}
    (s? : Option Stmt) (error? : List SyntaxError) (hne : ts ≠ [])
    (hs : ∀ vs, (statement (ts ++ vs)).value = s? ∧ (statement (ts ++ vs)).rest = us ++ vs ∧
      (statement (ts ++ vs)).log.map (·.diagnostic) = error?.map .syntactic)
    (h : Recovers us stmts errors) : Recovers ts (s?.toList ++ stmts) (error? ++ errors) := by
  intro vs
  obtain ⟨hvalue, hrest, hlog⟩ := hs vs
  obtain ⟨hvalue', hlog'⟩ := h vs
  cases ts with
  | nil => exact absurd rfl hne
  | cons t ts =>
    rw [List.cons_append] at hvalue hrest hlog ⊢
    rw [program]
    rw [← hrest] at hvalue' hlog'
    constructor
    · change (statement (t :: (ts ++ vs))).value.toList ++ _ = _
      rw [hvalue, List.append_assoc]
      exact congrArg _ hvalue'
    · change List.map (·.diagnostic) ((statement (t :: (ts ++ vs))).log ++ _) = _
      rw [List.map_append, hlog, List.map_append, List.append_assoc]
      exact congrArg _ hlog'

theorem Malformed.recovers {ts : List Token} {semicolon : Token} {error : SyntaxError}
    (h : Malformed (ts ++ [semicolon]) error) (hts : ∀ t ∈ ts, t.kind ≠ .semicolon)
    (hsemicolon : semicolon.kind = .semicolon) : Recovers (ts ++ [semicolon]) [] [error] := by
  refine recovers_of_statement none [error] (by simp) (fun vs => ?_) recovers_nil
  have hlast : ∀ t ∈ (ts ++ [semicolon]).getLast?, t.kind = .semicolon := by
    rw [List.getLast?_concat]
    rintro t ⟨⟩
    exact hsemicolon
  obtain ⟨hvalue, hrest, hlog⟩ := (h.append hlast vs).statement_fails
  refine ⟨hvalue, ?_, hlog⟩
  rw [hrest, List.append_assoc]
  exact afterSemicolon_append hts hsemicolon vs

theorem Sentences.recovers {us : List Token} {stmts : List Stmt} :
    Sentences us stmts → (∀ t ∈ us.getLast?, t.kind = .semicolon) → Recovers us stmts []
  | .nil, _ => recovers_nil
  | @Sentences.ended semicolon ts us s stmts hs hsemicolon hstmts, hend => by
    have hus : ∀ t ∈ us.getLast?, t.kind = .semicolon := by
      intro t ht
      refine hend t ?_
      rw [Option.mem_def, List.getLast?_append, List.getLast?_cons, Option.mem_def.1 ht]
      rfl
    refine recovers_of_statement (some s) [] (by simp) (fun vs => ?_) (hstmts.recovers hus)
    rw [List.append_assoc]
    have hended : (Parse.ended s (semicolon :: (us ++ vs))).Yields s (us ++ vs) :=
      ended_yields_cons hsemicolon
    obtain ⟨hvalue, hrest, hlog⟩ := hs.statement_yields (closes_cons hsemicolon (by decide)) hended
    exact ⟨hvalue, hrest, congrArg (List.map _) hlog⟩
  | @Sentences.bare ts us s stmts hs hfront hstmts, hend => by
    cases us with
    | nil =>
      obtain ⟨t, ht, hk⟩ := hs.finishes
      rw [List.append_nil] at hend
      rw [hend t ht] at hk
      exact absurd hk (by decide)
    | cons t us =>
      have hus : ∀ t' ∈ (t :: us).getLast?, t'.kind = .semicolon := by
        intro t' ht'
        refine hend t' ?_
        rw [Option.mem_def, List.getLast?_append, Option.mem_def.1 ht']
        rfl
      have hne {k : Kind} (hk : k ∉ .letWord :: .returnWord :: starters) (hk' : k ≠ .eof) : t.kind ≠ k := by
        have hfront : front (t :: us ++ []) ≠ k := hstmts.front_ne hk hk'.symm
        rwa [List.append_nil] at hfront
      refine recovers_of_statement (some s) [] (by simp) (fun vs => ?_) (hstmts.recovers hus)
      rw [List.append_assoc]
      have hcloses : Closes (t :: us ++ vs) := ⟨hfront, hne (by decide) (by decide)⟩
      obtain ⟨hvalue, hrest, hlog⟩ :=
        hs.statement_yields hcloses (ended_yields_of_ne (hne (by decide) (by decide)))
      exact ⟨hvalue, hrest, congrArg (List.map _) hlog⟩

end Parse

open Parse

/-- The last character is a semicolon, and it is a token, not a part of a string or a comment. -/
def EndsAtSemicolon (part : String) : Prop :=
  ∃ front, part.toList = front ++ [';'] ∧ .ok (.semicolonAfter front) ∈ itemsOf part

def isWellFormed (source : String) : Bool :=
  (parse source).diagnostics.isEmpty

/-- A text with one malformed statement, up to its semicolon. -/
structure IsMalformed (part : String) (error : SyntaxError) : Prop where
  malformed : Malformed (tokensOf (itemsOf part)) error
  semicolon : ∀ t ∈ (tokensOf (itemsOf part)).dropLast, t.kind ≠ .semicolon

/-- Texts that end with semicolons are scanned apart from each other and from what comes after them. -/
theorem spelling_join {parts : List String} (h : ∀ part ∈ parts, EndsAtSemicolon part) (b : String) :
    spelling (String.join parts ++ b).toList =
      parts.flatMap (fun part => spelling part.toList) ++ spelling b.toList := by
  rw [String.toList_append, String.toList_join]
  induction parts with
  | nil => rfl
  | cons part parts ih =>
    obtain ⟨⟨front, hsplit, hmem⟩, h⟩ := List.forall_mem_cons.1 h
    have hbegin : [] ++ part.toList = front ++ ';' :: [] := hsplit
    have happend := (spelling_append hbegin (fun _ h => absurd h List.not_mem_nil) hmem
      (parts.flatMap String.toList ++ b.toList)).1
    rw [List.flatMap_cons, List.append_assoc, happend, ih h, List.flatMap_cons, List.append_assoc]

/-- What a part gives alone, it also gives where it stands. -/
theorem EndsAtSemicolon.recovers {part : String} (h : EndsAtSemicolon part) {us : List Token}
    (hus : spelling part.toList = us.map some) :
    ((parse part).diagnostics = [] → Recovers us (bareStmts (parse part).program) []) ∧
      ∀ error, IsMalformed part error →
        (parse part).diagnostics = [.syntactic error] ∧ Recovers us [] [error] := by
  obtain ⟨front, hsplit, hmem⟩ := h
  obtain ⟨ts, hts, rfl⟩ := eq_map_ok_of_bare hus
  have hitems : itemsOf part = ts.map .ok := hts
  have hlast : .semicolonAfter front ∈ ts.getLast? := by
    have hbegin : [] ++ part.toList = front ++ ';' :: [] := hsplit
    have hlast : (itemsOf part).getLast? = some (.ok (.semicolonAfter front)) :=
      (spelling_append hbegin (fun _ h => absurd h List.not_mem_nil) hmem []).2
    rw [hitems, List.getLast?_map, Option.map_eq_some_iff] at hlast
    obtain ⟨t, ht, hok⟩ := hlast
    rwa [← Except.ok.inj hok]
  constructor
  · intro hdiagnostics
    obtain ⟨ts', hitems', hsentences⟩ := sentences_of_parse hdiagnostics
    obtain rfl : ts' = ts := by
      rw [← tokensOf_map_ok ts', ← hitems', hitems, tokensOf_map_ok]
    refine hsentences.recovers fun t ht => ?_
    rw [List.getLast?_map, Option.mem_def.1 hlast] at ht
    rw [← Option.some_inj.1 ht]
    rfl
  · rintro error ⟨hmalformed, hsemicolon⟩
    rw [hitems, tokensOf_map_ok] at hmalformed hsemicolon
    have hsplit : ts.dropLast.map Token.bare ++ [(Token.semicolonAfter front).bare] = ts.map .bare := by
      rw [← List.map_singleton (f := Token.bare), ← List.map_append, List.dropLast_append_getLast? _ hlast]
    have hrecovers : Recovers (ts.map .bare) [] [error] := by
      rw [← hsplit]
      refine Malformed.recovers (hsplit ▸ hmalformed.bare) ?_ rfl
      exact List.forall_mem_map.2 hsemicolon
    obtain ⟨-, hlog⟩ := hrecovers []
    rw [List.append_nil, program] at hlog
    exact ⟨(parse_of_bare hitems).1.trans hlog, hrecovers⟩

theorem recovers_join {parts : List String} (h : ∀ part ∈ parts, EndsAtSemicolon part ∧
      ((parse part).diagnostics = [] ∨ ∃ error, IsMalformed part error))
    {us : List Token} (hus : parts.flatMap (fun part => spelling part.toList) = us.map some) :
    ∃ errors,
      List.Forall₂ IsMalformed (parts.filter (!isWellFormed ·)) errors ∧
      Recovers us ((parts.filter isWellFormed).flatMap
        fun part => bareStmts (parse part).program) errors := by
  induction parts generalizing us with
  | nil =>
    obtain rfl := List.map_eq_nil_iff.1 hus.symm
    exact ⟨[], .nil, recovers_nil⟩
  | cons part parts ih =>
    obtain ⟨⟨hend, hpart⟩, h⟩ := List.forall_mem_cons.1 h
    rw [List.flatMap_cons, eq_comm, List.map_eq_append_iff] at hus
    obtain ⟨us₁, us₂, rfl, hus₁, hus₂⟩ := hus
    obtain ⟨hwell, hill⟩ := hend.recovers hus₁.symm
    obtain ⟨errors, hforall, hrecovers⟩ := ih h hus₂.symm
    rcases hpart with hnone | ⟨error, herror⟩
    · have hwell' : isWellFormed part = true := List.isEmpty_iff.2 hnone
      rw [List.filter_cons_of_neg (by rw [hwell']; decide), List.filter_cons_of_pos hwell', List.flatMap_cons]
      exact ⟨errors, hforall, (hwell hnone).append hrecovers⟩
    · obtain ⟨hdiagnostics, hskipped⟩ := hill error herror
      have hill' : isWellFormed part = false := by
        rw [isWellFormed, hdiagnostics]
        rfl
      rw [List.filter_cons_of_pos (by rw [hill']; decide), List.filter_cons_of_neg (by rw [hill']; decide)]
      exact ⟨error :: errors, .cons herror hforall, hskipped.append hrecovers⟩

theorem exists_map_ok {items : List Item} (h : ∀ e, .error e ∉ items) :
    ∃ ts : List Token, items = ts.map .ok := by
  induction items with
  | nil => exact ⟨[], rfl⟩
  | cons item items ih =>
    obtain ⟨ts, rfl⟩ := ih fun e he => h e (List.mem_cons_of_mem item he)
    cases item with
    | ok t => exact ⟨t :: ts, rfl⟩
    | error e => exact absurd List.mem_cons_self (h e)

/-- Recovery skips exactly the malformed statements. -/
theorem parse_recovers (parts : List String) (b : String)
    (hitems : ∀ e, .error e ∉ itemsOf (String.join parts ++ b))
    (hparts : ∀ part ∈ parts, EndsAtSemicolon part ∧
      ((parse part).diagnostics = [] ∨ ∃ error, IsMalformed part error)) :
    bareStmts (parse (String.join parts ++ b)).program =
        (parts.filter isWellFormed).flatMap
          (fun part => bareStmts (parse part).program) ++ bareStmts (parse b).program ∧
      ∃ errors : List SyntaxError,
        List.Forall₂ IsMalformed (parts.filter (!isWellFormed ·)) errors ∧
        (parse (String.join parts ++ b)).diagnostics =
          errors.map .syntactic ++ (parse b).diagnostics := by
  obtain ⟨ts, hts⟩ := exists_map_ok hitems
  have hspelling : spelling (String.join parts ++ b).toList = (ts.map Token.bare).map some := by
    rw [List.map_map]
    exact (congrArg (List.map Item.bare) hts).trans List.map_map
  rw [spelling_join fun part hpart => (hparts part hpart).1, eq_comm, List.map_eq_append_iff] at hspelling
  obtain ⟨us, vs, hsplit, hus, hvs⟩ := hspelling
  obtain ⟨tsb, htsb, rfl⟩ := eq_map_ok_of_bare hvs.symm
  obtain ⟨errors, hforall, hrecovers⟩ := recovers_join hparts hus.symm
  obtain ⟨hvalue, hlog⟩ := hrecovers (tsb.map .bare)
  obtain ⟨hdiagnostics, hprogram⟩ := parse_of_bare hts
  have hb : itemsOf b = tsb.map .ok := htsb
  obtain ⟨hdiagnostics', hprogram'⟩ := parse_of_bare hb
  rw [hdiagnostics, hprogram, hsplit, hdiagnostics', hprogram']
  exact ⟨hvalue, errors, hforall, hlog⟩

/-- What stands before its semicolon belongs to the malformed statement, and what comes after it does not. -/
theorem parse_recovers_of_brace :
    let parts := ["let 5 \x7b if;", "a;"]
    let source := String.join parts ++ "b)"
    (∀ e, .error e ∉ itemsOf source) ∧
      (∀ part ∈ parts, EndsAtSemicolon part ∧
        ((parse part).diagnostics = [] ∨ ∃ error, IsMalformed part error)) ∧
      bareStmts (parse source).program =
        bareStmts (parse "a;").program ++ bareStmts (parse "b)").program ∧
      (∃ errors, List.Forall₂ IsMalformed ["let 5 \x7b if;"] errors ∧
        (parse source).diagnostics = errors.map .syntactic ++ (parse "b)").diagnostics) ∧
      (parse source).diagnostics.map (·.message) =
        ["expected next token to be IDENT, got INT instead", "no prefix parse function for ) found"] := by
  intro parts source
  have hsource : source = "let 5 \x7b if;a;b)" := by decide
  have hlet : IsMalformed "let 5 \x7b if;" (.unexpected .ident .int) := by
    obtain ⟨word, ts, htokens, hword, hfront, hone⟩ : ∃ word ts,
        tokensOf (itemsOf "let 5 \x7b if;") = word :: ts ∧ word.kind = .letWord ∧ front ts = .int ∧
        (word :: ts).dropLast.all (·.kind ≠ .semicolon) := ⟨_, _, by cbv, rfl, rfl, rfl⟩
    refine ⟨?_, ?_⟩
    · rw [htokens, ← hfront]
      exact .name hword (by rw [hfront]; decide)
    · rw [htokens]
      simpa only [List.all_eq_true, decide_eq_true_iff] using hone
  have hparts : ∀ part ∈ parts, EndsAtSemicolon part ∧
      ((parse part).diagnostics = [] ∨ ∃ error, IsMalformed part error) := by
    simp only [parts, List.forall_mem_cons]
    refine ⟨⟨⟨"let 5 \x7b if".toList, by decide, List.mem_of_getLast? (by cbv)⟩, .inr ⟨_, hlet⟩⟩,
      ⟨⟨"a".toList, by decide, List.mem_of_getLast? (by cbv)⟩, .inl (by cbv)⟩, List.forall_mem_nil _⟩
  have hitems : ∀ e, .error e ∉ itemsOf source := by
    have hts : itemsOf "let 5 \x7b if;a;b)" = (tokensOf (itemsOf "let 5 \x7b if;a;b)")).map .ok := by cbv
    intro e he
    rw [hsource, hts] at he
    obtain ⟨t, -, ⟨⟩⟩ := List.mem_map.1 he
  have hfilter : parts.filter isWellFormed = ["a;"] ∧
      parts.filter (!isWellFormed ·) = ["let 5 \x7b if;"] := by
    dsimp only [parts]
    constructor <;> cbv
  have hrecovers := parse_recovers parts "b)" hitems hparts
  rw [hfilter.1, hfilter.2, List.flatMap_singleton] at hrecovers
  refine ⟨hitems, hparts, hrecovers.1, hrecovers.2, ?_⟩
  have hdiagnostics : (parse "let 5 \x7b if;a;b)").diagnostics =
      [.syntactic (.unexpected .ident .int), .syntactic (.noOperand .parenR)] := by cbv
  rw [hsource, hdiagnostics]
  decide

end Monkey
