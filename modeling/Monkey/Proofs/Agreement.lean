import Monkey.Proofs.Following

namespace Monkey.Parser

open Parse (Attempt Reading Outcome Fault Level front front_cons)

variable {n depth : Nat} {s : Parser} {ts : List Token}

theorem follows_moreParameters {depth n : Nat} {s : Parser} {ts : List Token} (hd : ts.length < depth)
    (hs : s.Before ts n) : Follows Before (moreParameters depth) s n (Parse.moreParameters ts) := by
  cases depth with
  | zero => exact absurd hd (Nat.not_lt_zero _)
  | succ depth =>
    rw [moreParameters, Parse.moreParameters]
    refine Follows.of_get ?_
    rw [hs.shows.kind_eq]
    split
    · next hcomma =>
      cases ts with
      | nil => exact nomatch hcomma
      | cons t ts =>
        refine follows_take hs.toAhead hcomma fun s' hat => ?_
        refine follows_expect (hat.before hcomma) fun name rest hlt s' n' hbefore => ?_
        exact (follows_moreParameters (by simp only [List.length_cons] at hd; omega) hbefore).map _
    · exact follows_expect hs fun _ rest _ s' n' hbefore => follows_done hbefore
termination_by depth
decreasing_by all_goals (subst_vars; exact Nat.lt_succ_self _)

theorem follows_parameters (hd : ts.length < depth) (hs : s.Before ts n) :
    Follows Before (parameters depth) s n (Parse.parameters ts) := by
  rw [parameters, Parse.parameters]
  refine Follows.of_get ?_
  rw [hs.shows.kind_eq]
  split
  · next hclose => exact follows_doneWith hs hclose
  · refine follows_expect hs fun name rest hlt s' n' hbefore => ?_
    exact (follows_moreParameters (by omega) hbefore).map _


theorem follows_ended (hs : s.Before ts n) (stmt : Stmt) :
    Follows Ahead (ended stmt) s n (Parse.ended stmt ts) := by
  rw [ended, Parse.ended]
  refine Follows.of_get ?_
  rw [hs.shows.kind_eq]
  split
  · next hsemicolon =>
    cases ts with
    | nil => exact nomatch hsemicolon
    | cons t ts =>
      refine Follows.next hs.toAhead fun s' hat => ?_
      exact ⟨some stmt, s', rfl, Reports.refl s', rfl, hat.tail⟩
  · exact follows_done hs.toAhead

-- By induction on the depth. No more than four calls inside each other leave the tokens as they are, so four
-- levels for each token suffice.

mutual

theorem follows_expression {depth n : Nat} {s : Parser} {ts : List Token} (level : Level)
    (hd : 4 * ts.length + 1 < depth) (hs : s.At ts n) :
    Follows Before (expression depth level) s n (Parse.expression level ts) := by
  cases depth with
  | zero => exact absurd hd (Nat.not_lt_zero _)
  | succ depth =>
    rw [expression, Parse.expression]
    refine (follows_operand (by omega) hs).andThen fun left rest hle s' n' hbefore => ?_
    exact follows_operators level left (by omega) hbefore
termination_by depth
decreasing_by all_goals (subst_vars; exact Nat.lt_succ_self _)

theorem follows_operand {depth n : Nat} {s : Parser} {ts : List Token}
    (hd : 4 * ts.length < depth) (hs : s.At ts n) :
    Follows Before (operand depth) s n (Parse.operand ts) := by
  cases depth with
  | zero => exact absurd hd (Nat.not_lt_zero _)
  | succ depth =>
    rw [operand]
    refine Follows.of_get ?_
    dsimp only
    cases ts with
    | nil =>
      have hend : s.current.kind = .eof := hs.shows
      rw [hend, Parse.operand]
      exact follows_refused hs _
    | cons t ts =>
      have hcurrent : s.current = t := hs.shows
      have hlength : (t :: ts).length = ts.length + 1 := List.length_cons
      rw [hcurrent, Parse.operand]
      have hbefore {k : Kind} (hk : t.kind = k) (hgoes : k ≠ .semicolon := by decide) : s.Before ts (n + 1) :=
        hs.before hk hgoes
      generalize t.kind = k at hbefore
      cases k with
      | ident | string | trueWord | falseWord => exact (follows_done (hbefore rfl)).past
      | int =>
        dsimp only
        split
        · exact (follows_done (hbefore rfl)).past
        · exact follows_refused hs _
      | bang | minus =>
        refine (Follows.next (hbefore rfl).toAhead fun s₁ hat₁ => ?_).past
        exact (follows_expression .unary (by omega) hat₁).andThen fun right rest _ s₂ n₂ h₂ => follows_done h₂
      | parenL =>
        refine (Follows.next (hbefore rfl).toAhead fun s₁ hat₁ => ?_).past
        refine (follows_expression .lowest (by omega) hat₁).andThen fun e ts₁ _ s₂ n₂ h₂ => ?_
        exact follows_expect h₂ fun _ rest _ s₃ n₃ h₃ => follows_done h₃
      | ifWord =>
        refine (follows_expect (hbefore rfl) fun _ ts₁ _ s₁ n₁ h₁ => ?_).past
        refine Follows.next h₁.toAhead fun s₁ hat₁ => ?_
        refine (follows_expression .lowest (by omega) hat₁).andThen fun test ts₂ _ s₂ n₂ h₂ => ?_
        refine follows_expect h₂ fun _ ts₃ _ s₃ n₃ h₃ => ?_
        refine follows_expect h₃ fun _ ts₄ _ s₄ n₄ h₄ => ?_
        refine Follows.next h₄.toAhead fun s₄ hat₄ => ?_
        refine (completes_block (by omega) hat₄).andTry fun yes ts₅ _ s₅ n₅ h₅ => Follows.of_get ?_
        rw [h₅.shows.kind_eq]
        split
        · next helse =>
          cases ts₅ with
          | nil => exact nomatch helse
          | cons t₅ ts₅ =>
            have hlength₅ : (t₅ :: ts₅).length = ts₅.length + 1 := List.length_cons
            refine follows_take h₅.toAhead helse fun s₆ hat₆ => ?_
            refine follows_expect (hat₆.before helse) fun _ ts₇ _ s₇ n₇ h₇ => ?_
            refine Follows.next h₇.toAhead fun s₇ hat₇ => ?_
            exact (completes_block (by omega) hat₇).andTry fun no rest _ s₈ n₈ h₈ => follows_done h₈
        · exact follows_done h₅
      | fnWord =>
        refine (follows_expect (hbefore rfl) fun _ ts₁ _ s₁ n₁ h₁ => ?_).past
        refine (follows_parameters (by omega) h₁).andThen fun params ts₂ _ s₂ n₂ h₂ => ?_
        refine follows_expect h₂ fun _ ts₃ _ s₃ n₃ h₃ => ?_
        refine Follows.next h₃.toAhead fun s₃ hat₃ => ?_
        exact (completes_block (by omega) hat₃).andTry fun body rest _ s₄ n₄ h₄ => follows_done h₄
      | bracketL => exact ((follows_elements .bracketR (by omega) (hbefore rfl)).map _).past
      | braceL => exact ((follows_entries (by omega) (hbefore rfl)).map _).past
      | _ => exact follows_refused hs _
termination_by depth
decreasing_by all_goals (subst_vars; exact Nat.lt_succ_self _)

theorem follows_operators {depth n : Nat} {s : Parser} {ts : List Token} (level : Level) (left : Expr)
    (hd : 4 * ts.length < depth) (hs : s.Before ts n) :
    Follows Before (operators depth level left) s n (Parse.operators level left ts) := by
  cases depth with
  | zero => exact absurd hd (Nat.not_lt_zero _)
  | succ depth =>
    rw [operators, Parse.operators]
    refine Follows.of_get ?_
    dsimp only
    rw [hs.shows.kind_eq]
    by_cases hlevel : level.rank < (Level.ofKind (front ts)).rank
    · cases ts with
      | nil => exact absurd hlevel (Nat.not_lt_zero _)
      | cons t ts =>
        have hlength : (t :: ts).length = ts.length + 1 := List.length_cons
        have hgoes : front (t :: ts) ≠ .semicolon := fun hkind => absurd (hkind ▸ hlevel) (Nat.not_lt_zero _)
        -- all operators between two operands go on in the same way
        have hright (tighter : Level) {s₁ : Parser} {n₁ : Nat} (h₁ : s₁.Ahead ts n₁) :
            Follows Before (do
              Parser.next
              let right ← expression depth tighter
              operators depth level (.binary left t right)) s₁ n₁
              ((Parse.expression tighter ts).andThen fun right rest _ =>
                Parse.operators level (.binary left t right) rest : Attempt Expr ts.length) := by
          refine Follows.next h₁ fun s₂ hat₂ => ?_
          refine (follows_expression tighter (by omega) hat₂).andThen fun right rest _ s₃ n₃ h₃ => ?_
          exact follows_operators level _ (by omega) h₃
        rw [if_pos ⟨hgoes, hlevel⟩, if_pos hlevel]
        rw [front_cons] at hlevel ⊢
        generalize hk : t.kind = k at hlevel
        cases k with
        | parenL =>
          refine follows_take hs.toAhead hk fun s₁ hat₁ => ?_
          rw [hk]
          refine (follows_elements .parenR (by omega) (hat₁.before hk)).andThen fun args rest _ s₂ n₂ h₂ => ?_
          exact follows_operators level _ (by omega) h₂
        | bracketL =>
          refine follows_take hs.toAhead hk fun s₁ hat₁ => ?_
          rw [hk]
          refine Follows.next hat₁.ahead fun s₂ hat₂ => ?_
          refine (follows_expression .lowest (by omega) hat₂).andThen fun index ts₂ _ s₃ n₃ h₃ => ?_
          refine follows_expect h₃ fun _ rest _ s₄ n₄ h₄ => ?_
          exact follows_operators level _ (by omega) h₄
        | equal | notEqual | less | greater | plus | minus | star | slash =>
          refine follows_take hs.toAhead hk fun s₁ hat₁ => Follows.of_get ?_
          have hcurrent : s₁.current = t := hat₁.shows
          rw [hcurrent, hk]
          dsimp only
          exact hright _ hat₁.ahead
        | _ => exact absurd hlevel (Nat.not_lt_zero _)
    · rw [if_neg fun h => hlevel h.2, if_neg hlevel]
      exact follows_done hs
termination_by depth
decreasing_by all_goals (subst_vars; exact Nat.lt_succ_self _)

theorem follows_elements {depth n : Nat} {s : Parser} {ts : List Token} (close : Kind)
    (hd : 4 * ts.length + 2 < depth) (hs : s.Before ts n) (hgoes : close ≠ .semicolon := by decide)
    (hends : close ≠ .eof := by decide) :
    Follows Before (elements depth close) s n (Parse.elements close ts) := by
  cases depth with
  | zero => exact absurd hd (Nat.not_lt_zero _)
  | succ depth =>
    rw [elements, Parse.elements]
    refine Follows.of_get ?_
    rw [hs.shows.kind_eq]
    split
    · next hclose => exact follows_doneWith hs hclose hgoes hends
    · refine Follows.next hs.toAhead fun s₁ hat₁ => ?_
      refine (follows_expression .lowest (by omega) hat₁).andThen fun e rest _ s₂ n₂ h₂ => ?_
      exact (follows_moreElements close (by omega) h₂ hgoes hends).map _
termination_by depth
decreasing_by all_goals (subst_vars; exact Nat.lt_succ_self _)

theorem follows_moreElements {depth n : Nat} {s : Parser} {ts : List Token} (close : Kind)
    (hd : 4 * ts.length < depth) (hs : s.Before ts n) (hgoes : close ≠ .semicolon := by decide)
    (hends : close ≠ .eof := by decide) :
    Follows Before (moreElements depth close) s n (Parse.moreElements close ts) := by
  cases depth with
  | zero => exact absurd hd (Nat.not_lt_zero _)
  | succ depth =>
    rw [moreElements, Parse.moreElements]
    refine Follows.of_get ?_
    rw [hs.shows.kind_eq]
    split
    · next hcomma =>
      cases ts with
      | nil => exact nomatch hcomma
      | cons t ts =>
        have hlength : (t :: ts).length = ts.length + 1 := List.length_cons
        refine follows_take hs.toAhead hcomma fun s₁ hat₁ => ?_
        refine Follows.next hat₁.ahead fun s₂ hat₂ => ?_
        refine (follows_expression .lowest (by omega) hat₂).andThen fun e rest _ s₃ n₃ h₃ => ?_
        exact (follows_moreElements close (by omega) h₃ hgoes hends).map _
    · exact follows_expect hs (fun _ rest _ s₁ n₁ h₁ => follows_done h₁) hgoes hends
termination_by depth
decreasing_by all_goals (subst_vars; exact Nat.lt_succ_self _)

theorem follows_entries {depth n : Nat} {s : Parser} {ts : List Token}
    (hd : 4 * ts.length + 2 < depth) (hs : s.Before ts n) :
    Follows Before (entries depth) s n (Parse.entries ts) := by
  cases depth with
  | zero => exact absurd hd (Nat.not_lt_zero _)
  | succ depth =>
    rw [entries, Parse.entries]
    refine Follows.of_get ?_
    have hkind : s.ahead.kind = front ts := hs.shows.kind_eq
    rw [hkind]
    split
    · next hclose =>
      exact Follows.congr (expect_of_eq (hkind.trans hclose)) (follows_doneWith hs hclose)
    · refine Follows.next hs.toAhead fun s₁ hat₁ => ?_
      refine (follows_expression .lowest (by omega) hat₁).andThen fun key ts₁ _ s₂ n₂ h₂ => ?_
      refine follows_expect h₂ fun _ ts₂ _ s₃ n₃ h₃ => ?_
      refine Follows.next h₃.toAhead fun s₃ hat₃ => ?_
      refine (follows_expression .lowest (by omega) hat₃).andThen fun value ts₃ _ s₄ n₄ h₄ => ?_
      refine Follows.of_get ?_
      have hkind₄ : s₄.ahead.kind = front ts₃ := h₄.shows.kind_eq
      rw [hkind₄]
      split
      · next hclose =>
        exact Follows.congr (expect_of_eq (hkind₄.trans hclose)) (follows_doneWith h₄ hclose)
      · refine follows_expect h₄ fun _ rest _ s₅ n₅ h₅ => ?_
        exact (follows_entries (by omega) h₅).map _
termination_by depth
decreasing_by all_goals (subst_vars; exact Nat.lt_succ_self _)

theorem completes_block {depth n : Nat} {s : Parser} {ts : List Token}
    (hd : 4 * ts.length + 3 < depth) (hs : s.At ts n) :
    Completes Before (block depth) s n (Parse.block ts) := by
  cases depth with
  | zero => exact absurd hd (Nat.not_lt_zero _)
  | succ depth =>
    have hkind : s.current.kind = front ts := hs.shows.kind_eq
    rw [block]
    refine Completes.of_get ?_
    rw [hkind]
    cases ts with
    | nil =>
      rw [Parse.block]
      obtain ⟨s₁, hreport, hahead, hcurrent, hreports⟩ := hs.tail.report (.unexpected .braceR .eof)
      refine ⟨s₁, bind_of_some hreport, hreports, hahead, ?_, fun _ => rfl⟩
      rw [hcurrent, hkind]
      decide
    | cons t ts =>
      have hlength : (t :: ts).length = ts.length + 1 := List.length_cons
      rw [front_cons, Parse.block]
      split
      · next hclose => exact ⟨s, rfl, Reports.refl s, hs.before hclose⟩
      · rw [if_neg (hs.proper t List.mem_cons_self)]
        refine (completes_statement (by omega) hs).andThen fun stmt? rest _ s₁ n₁ hat₁ => ?_
        exact (completes_block (by omega) hat₁).map _
termination_by depth
decreasing_by all_goals (subst_vars; exact Nat.lt_succ_self _)

theorem completes_statement {depth n : Nat} {s : Parser} {t : Token} {ts : List Token}
    (hd : 4 * (t :: ts).length + 2 < depth) (hs : s.At (t :: ts) n) :
    Completes Ahead (attempt (statement depth)) s n (Parse.statement (t :: ts)) := by
  cases depth with
  | zero => exact absurd hd (Nat.not_lt_zero _)
  | succ depth =>
    have hcurrent : s.current = t := hs.shows
    have hlength : (t :: ts).length = ts.length + 1 := List.length_cons
    have hbefore {k : Kind} (hk : t.kind = k) (hgoes : k ≠ .semicolon := by decide) : s.Before ts (n + 1) :=
      hs.before hk hgoes
    have hexpr : Follows Ahead (expression depth .lowest >>= fun value => ended (.expr value)) s n
        ((Parse.expression .lowest (t :: ts)).andThen fun value rest _ => Parse.ended (.expr value) rest) :=
      (follows_expression .lowest (by omega) hs).andThen fun value rest _ s₁ n₁ h₁ => follows_ended h₁ _
    rw [statement, Parse.statement]
    refine Completes.of_attempt_get ?_
    rw [hcurrent]
    generalize t.kind = k at hbefore
    cases k with
    | letWord =>
      refine (Follows.orSkip ?_ (by omega)).past
      refine follows_expect (hbefore rfl) fun name ts₁ _ s₁ n₁ h₁ => ?_
      refine follows_expect h₁ fun _ ts₂ _ s₂ n₂ h₂ => ?_
      refine Follows.next h₂.toAhead fun s₂ hat₂ => ?_
      exact (follows_expression .lowest (by omega) hat₂).andThen fun value rest _ s₃ n₃ h₃ =>
        follows_ended h₃ _
    | returnWord =>
      refine (Follows.orSkip ?_ (by omega)).past
      refine Follows.next (hbefore rfl).toAhead fun s₁ hat₁ => ?_
      exact (follows_expression .lowest (by omega) hat₁).andThen fun value rest _ s₂ n₂ h₂ =>
        follows_ended h₂ _
    | _ => exact hexpr.orResume
termination_by depth
decreasing_by all_goals (subst_vars; exact Nat.lt_succ_self _)

end

/-- At the end of the text the parser is at its end. -/
theorem completes_program {depth n : Nat} {s : Parser} {ts : List Token} (hd : 4 * ts.length + 3 < depth)
    (hs : s.At ts n) : Completes (fun s _ n => s.At [] n) (program depth) s n (Parse.program ts) := by
  cases depth with
  | zero => exact absurd hd (Nat.not_lt_zero _)
  | succ depth =>
    have hkind : s.current.kind = front ts := hs.shows.kind_eq
    rw [program]
    refine Completes.of_get ?_
    rw [hkind]
    cases ts with
    | nil =>
      rw [Parse.program]
      exact ⟨s, rfl, Reports.refl s, hs⟩
    | cons t ts =>
      have hlength : (t :: ts).length = ts.length + 1 := List.length_cons
      rw [front_cons, Parse.program, if_neg (hs.proper t List.mem_cons_self)]
      refine (completes_statement (by omega) hs).andThen fun stmt? rest _ s₁ n₁ hat₁ => ?_
      exact (completes_program (by omega) hat₁).map _
termination_by depth
decreasing_by all_goals (subst_vars; exact Nat.lt_succ_self _)

/-- Before the first call, the parser has a token that stands in no text ahead of it. -/
theorem ahead_ofText (source : String) :
    (ofText source).Ahead (.empty :: Parse.tokensOf (itemsOf source)) 1 := by
  have hproper : .eof ∉ (Parse.tokensOf (itemsOf source)).map (·.kind) := (scan_partitions source).2.1
  refine ⟨rfl, rfl, nofun, ?_, Nat.zero_lt_one⟩
  refine List.forall_mem_cons.2 ⟨nofun, fun t ht hkind => ?_⟩
  exact hproper (List.mem_map.2 ⟨t, ht, hkind⟩)

theorem completes_text (source : String) (hd : 4 * (Parse.tokensOf (itemsOf source)).length + 3 < depth) :
    Completes (fun s _ n => s.At [] n) (text depth) (ofText source) 2
      (Parse.program (Parse.tokensOf (itemsOf source))) := by
  obtain ⟨s₁, hnext₁, hat₁, hreports₁⟩ := (ahead_ofText source).next
  obtain ⟨s₂, hnext₂, hat₂, hreports₂⟩ := hat₁.ahead.next
  obtain ⟨s₃, hprogram, hreports₃, hat₃⟩ := completes_program hd hat₂
  refine ⟨s₃, ?_, hreports₁.trans (hreports₂.trans hreports₃), hat₃⟩
  rw [text, bind_of_some hnext₁, bind_of_some hnext₂, hprogram]

end Monkey.Parser
