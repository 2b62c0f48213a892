import Monkey.Proofs.Grammar
import Monkey.Proofs.Yields

namespace Monkey.Parse
open Attempt

-- Failures are always told of

theorem honest_moreParameters (ts : List Token) : (moreParameters ts).Honest := by
  rw [moreParameters]
  split
  · exact honest_expect fun _ ts₁ _ => honest_expect fun _ ts₂ _ => (honest_moreParameters ts₂).map _
  · exact honest_expect fun _ _ _ => honest_done _ _
termination_by ts.length

theorem honest_parameters (ts : List Token) : (parameters ts).Honest := by
  rw [parameters]
  split
  · exact honest_doneWith _ _
  · exact honest_expect fun _ rest _ => (honest_moreParameters rest).map _

theorem honest_ended (s : Stmt) (ts : List Token) : (ended s ts).Honest := by
  rw [ended]
  split
  · exact honest_doneWith _ _
  · exact honest_done _ _

mutual

theorem honest_expression (level : Level) (ts : List Token) : (expression level ts).Honest := by
  rw [expression]
  exact (honest_operand ts).andThen fun left rest h => honest_operators level left rest
termination_by (ts.length, 1)
decreasing_by all_goals (simp only [Prod.lex_def, true_and]; omega)

theorem honest_operand (ts : List Token) : (operand ts).Honest := by
  cases ts with
  | nil => rw [operand]; exact honest_refused _ _
  | cons t ts =>
    rw [operand]
    split
    · exact honest_done _ _
    · dsimp only
      split
      · exact honest_done _ _
      · exact honest_refused _ _
    · exact honest_done _ _
    · exact honest_done _ _
    · exact honest_done _ _
    · exact ((honest_expression .unary ts).andThen fun _ _ _ => honest_done _ _).past
    · exact ((honest_expression .unary ts).andThen fun _ _ _ => honest_done _ _).past
    · exact ((honest_expression .lowest ts).andThen fun _ _ _ =>
        honest_expect fun _ _ _ => honest_done _ _).past
    · refine Honest.past (honest_expect fun _ ts₁ _ => (honest_expression .lowest ts₁).andThen fun _ _ _ =>
        honest_expect fun _ _ _ => honest_expect fun _ _ _ => Reading.honest_andTry fun _ _ _ => ?_)
      split
      · exact honest_expect fun _ _ _ => honest_expect fun _ _ _ =>
          Reading.honest_andTry fun _ _ _ => honest_done _ _
      · exact honest_done _ _
    · exact Honest.past (honest_expect fun _ ts₁ _ => (honest_parameters ts₁).andThen fun _ _ _ =>
        honest_expect fun _ _ _ => Reading.honest_andTry fun _ _ _ => honest_done _ _)
    · exact ((honest_elements .bracketR ts).map _).past
    · exact ((honest_entries ts).map _).past
    · exact honest_refused _ _
termination_by (ts.length, 0)
decreasing_by all_goals (simp only [Prod.lex_def, List.length_cons]; omega)

theorem honest_operators (level : Level) (left : Expr) (ts : List Token) :
    (operators level left ts).Honest := by
  rw [operators]
  split
  · refine honest_expect fun op ts₁ h => ?_
    split
    · exact (honest_elements .parenR ts₁).andThen fun _ rest _ => honest_operators level _ rest
    · exact (honest_expression .lowest ts₁).andThen fun _ ts₂ _ =>
        honest_expect fun _ rest _ => honest_operators level _ rest
    · exact (honest_expression _ ts₁).andThen fun _ rest _ => honest_operators level _ rest
  · exact honest_done _ _
termination_by (ts.length, 0)
decreasing_by all_goals (simp only [Prod.lex_def]; omega)

theorem honest_elements (close : Kind) (ts : List Token) : (elements close ts).Honest := by
  rw [elements]
  split
  · exact honest_doneWith _ _
  · exact (honest_expression .lowest ts).andThen fun _ rest _ => (honest_moreElements close rest).map _
termination_by (ts.length, 2)
decreasing_by all_goals (simp only [Prod.lex_def, true_and]; omega)

theorem honest_moreElements (close : Kind) (ts : List Token) : (moreElements close ts).Honest := by
  rw [moreElements]
  split
  · exact honest_expect fun _ ts₁ _ => (honest_expression .lowest ts₁).andThen fun _ rest _ =>
      (honest_moreElements close rest).map _
  · exact honest_expect fun _ _ _ => honest_done _ _
termination_by (ts.length, 0)
decreasing_by all_goals (simp only [Prod.lex_def]; omega)

theorem honest_entries (ts : List Token) : (entries ts).Honest := by
  rw [entries]
  split
  · exact honest_doneWith _ _
  · refine (honest_expression .lowest ts).andThen fun _ ts₁ _ => honest_expect fun _ ts₂ _ =>
      (honest_expression .lowest ts₂).andThen fun _ ts₃ _ => ?_
    split
    · exact honest_doneWith _ _
    · exact honest_expect fun _ rest _ => (honest_entries rest).map _
termination_by (ts.length, 2)
decreasing_by all_goals (simp only [Prod.lex_def, true_and]; omega)

end

-- The levels and their operators

theorem Level.rank_tighter {level : Level} (h : level ≠ .call) :
    level.tighter.rank = level.rank + 1 := by
  cases level <;> simp_all [tighter, rank]

theorem Level.eq_of_rank_eq {a b : Level} (h : a.rank = b.rank) : a = b := by
  cases a <;> cases b <;> simp_all [rank]

theorem Level.rank_le_call (level : Level) : level.rank ≤ Level.call.rank := by
  cases level <;> decide

theorem mem_infixes_ofKind {k : Kind} (h : 0 < (Level.ofKind k).rank) (hp : k ≠ .parenL)
    (hb : k ≠ .bracketL) : k ∈ (Level.ofKind k).infixes := by
  cases k <;> simp_all [Level.ofKind, Level.infixes, Level.rank]

theorem ofKind_eq_of_mem_infixes {k : Kind} {level : Level} (h : k ∈ level.infixes) :
    Level.ofKind k = level := by
  cases level <;> simp [Level.infixes] at h <;> obtain rfl | rfl := h <;> rfl

theorem rank_ofKind_eq_zero_iff (k : Kind) : (Level.ofKind k).rank = 0 ↔ k ∉ continuing := by
  cases k <;> decide

/-- What is spelled by tight operators can stand where looser ones are allowed. -/
theorem Phrase.loosen {m n : Level} {ts : List Token} {e : Expr} (h : Phrase m ts e)
    (hr : n.rank ≤ m.rank) : Phrase n ts e := by
  by_cases he : n.rank = m.rank
  · rwa [Level.eq_of_rank_eq he]
  · have hn : n ≠ .call := by
      rintro rfl
      have := m.rank_le_call
      omega
    have := Level.rank_tighter hn
    exact Phrase.tighter (h.loosen (by omega))
termination_by m.rank - n.rank

theorem rank_tighter_le (level : Level) : level.tighter.rank ≤ level.rank + 1 := by
  cases level <;> decide

theorem rank_tighter_le_unary {k : Kind} {level : Level} (h : k ∈ level.infixes) :
    level.tighter.rank ≤ Level.unary.rank := by
  cases level <;> simp_all [Level.infixes, Level.tighter, Level.rank]

theorem exists_of_front_eq {k : Kind} {ts : List Token} (h : front ts = k) (hk : k ≠ .eof) :
    ∃ t, ts = t :: ts.tail ∧ t.kind = k := by
  cases ts with
  | nil => exact absurd h.symm hk
  | cons t ts => exact ⟨t, rfl, h⟩

-- What is read is spelled by the tokens read

/-- A closing token has been read after tokens of which `P` holds. -/
def Enclosed (close : Kind) (ts rest : List Token) (P : List Token → Prop) : Prop :=
  ∃ us closing, ts = us ++ closing :: rest ∧ closing.kind = close ∧ P us

theorem enclosed_nil {close : Kind} {ts : List Token} {P : List Token → Prop} (h : front ts = close)
    (hclose : close ≠ .eof) (hP : P []) : Enclosed close ts ts.tail P := by
  have ⟨t, ht, hk⟩ := exists_of_front_eq h hclose
  exact ⟨[], t, ht, hk, hP⟩

theorem moreParameters_sound (ts : List Token) {names : List Ident} {rest : List Token}
    (h : (moreParameters ts).Yields names rest) :
    Enclosed .parenR ts rest fun us =>
      ∀ t : Token, t.kind = .ident → Names (t :: us) (.ofToken t :: names) := by
  rw [moreParameters] at h
  split at h
  · obtain ⟨comma, ts₁, _, h₁, hcomma, h⟩ := yields_expect.1 h
    obtain ⟨name, ts₂, _, h₂, hname, h⟩ := yields_expect.1 h
    obtain ⟨names', hmore, rfl⟩ := yields_map.1 h
    obtain ⟨us, closing, h₃, hc, hnames⟩ := moreParameters_sound ts₂ hmore
    refine ⟨comma :: name :: us, closing, by simp [h₁, h₂, h₃], hc, fun t ht => ?_⟩
    exact Names.cons ht hcomma (hnames name hname) (by simp)
  · obtain ⟨closing, ts₁, _, h₁, hc, h⟩ := yields_expect.1 h
    obtain ⟨rfl, rfl⟩ := yields_done.1 h
    exact ⟨[], closing, h₁, hc, fun t ht => Names.one ht⟩
termination_by ts.length
decreasing_by simp only [h₁, h₂, List.length_cons]; omega

theorem parameters_sound (ts : List Token) {names : List Ident} {rest : List Token}
    (h : (parameters ts).Yields names rest) :
    Enclosed .parenR ts rest (Names · names) := by
  rw [parameters] at h
  split at h
  · next hf =>
    obtain ⟨rfl, rfl⟩ := yields_doneWith.1 h
    exact enclosed_nil hf (by decide) Names.nil
  · obtain ⟨name, ts₁, _, h₁, hname, h⟩ := yields_expect.1 h
    obtain ⟨names', hmore, rfl⟩ := yields_map.1 h
    obtain ⟨us, closing, h₂, hc, hnames⟩ := moreParameters_sound ts₁ hmore
    exact ⟨name :: us, closing, by simp [h₁, h₂], hc, hnames name hname⟩

/-- An operand has been read, which is of a tighter level than any infix operator and of no looser one than
what follows. -/
def Begun (ts : List Token) (e : Expr) (rest : List Token) : Prop :=
  ∃ us, ∃ m : Level, ts = us ++ rest ∧ Phrase m us e ∧ Level.unary.rank ≤ m.rank ∧
    (Level.ofKind (front rest)).rank ≤ m.rank

/-- An expression has been read up to an operator that holds no tighter than `level`. -/
def Expressed (level : Level) (ts : List Token) (e : Expr) (rest : List Token) : Prop :=
  ∃ us, ts = us ++ rest ∧ (Level.ofKind (front rest)).rank ≤ level.rank ∧
    ∀ n : Level, n.rank ≤ level.rank + 1 → n.rank ≤ Level.unary.rank → Phrase n us e

theorem Expressed.of_lowest {ts rest : List Token} {e : Expr} (h : Expressed .lowest ts e rest) :
    ∃ us, ts = us ++ rest ∧ (Level.ofKind (front rest)).rank ≤ Level.lowest.rank ∧
      Phrase .equality us e := by
  have ⟨us, hts, hrest, hphrase⟩ := h
  exact ⟨us, hts, hrest, hphrase .equality (by decide) (by decide)⟩

/-- Anything may follow what stands between brackets of its own. -/
theorem begun_of_primary {us ts rest : List Token} {e : Expr} (hts : ts = us ++ rest)
    (h : Primary us e) : Begun ts e rest :=
  ⟨us, .call, hts, .primary h, by decide, Level.rank_le_call _⟩

/-- What follows a prefix operator reaches to the first infix operator. -/
theorem begun_of_expressed {op : Token} {ts rest : List Token} {e : Expr} (hop : op.kind ∈ [.bang, .minus])
    (h : Expressed .unary ts e rest) : Begun (op :: ts) (.unary op e) rest := by
  have ⟨us, hts, hrest, hphrase⟩ := h
  have hunary := Phrase.unary hop (hphrase .unary (by decide) (by decide))
  exact ⟨op :: us, .unary, by simp [hts], hunary, Nat.le_refl _, hrest⟩

theorem not_mem_continuing_front_of_append {us ts : List Token}
    (h : front (us ++ ts) ∉ continuing) : front us ∉ continuing := by
  cases us with
  | nil => decide
  | cons t us => exact h

theorem ended_sound {s : Stmt} {ts : List Token} {s' : Stmt} {rest : List Token}
    (h : (ended s ts).Yields s' rest) :
    s' = s ∧ (rest = ts ∨ ∃ semicolon, ts = semicolon :: rest ∧ semicolon.kind = .semicolon) := by
  rw [ended] at h
  split at h
  · next hf =>
    obtain ⟨rfl, rfl⟩ := yields_doneWith.1 h
    exact ⟨rfl, Or.inr (exists_of_front_eq hf (by decide))⟩
  · obtain ⟨rfl, rfl⟩ := yields_done.1 h
    exact ⟨rfl, Or.inl rfl⟩

/-- A statement has been read: either its semicolon too, or nothing follows that carries it on. -/
def Stated (ts : List Token) (s : Stmt) (rest : List Token) : Prop :=
  ∃ us, Sentence us s ∧
    ((ts = us ++ rest ∧ front rest ∉ continuing) ∨
      ∃ semicolon, ts = us ++ semicolon :: rest ∧ semicolon.kind = .semicolon)

theorem stated_of_ended {s s' : Stmt} {us ts mid rest : List Token} (hs : Sentence us s)
    (hts : ts = us ++ mid) (hmid : (Level.ofKind (front mid)).rank ≤ Level.lowest.rank)
    (h : (ended s mid).Yields s' rest) : Stated ts s' rest := by
  obtain ⟨rfl, rfl | ⟨semicolon, rfl, hk⟩⟩ := ended_sound h
  · have hfront := (rank_ofKind_eq_zero_iff (front rest)).1 (Nat.le_zero.1 hmid)
    exact ⟨us, hs, Or.inl ⟨hts, hfront⟩⟩
  · exact ⟨us, hs, Or.inr ⟨semicolon, hts, hk⟩⟩

theorem Stated.sentences {ts rest us vs : List Token} {s : Stmt} {stmts : List Stmt}
    (h : Stated ts s rest) (hrest : rest = us ++ vs) (hus : Sentences us stmts) :
    ∃ ws, ts = ws ++ vs ∧ Sentences ws (s :: stmts) := by
  obtain ⟨ws, hs, ⟨hts, hfront⟩ | ⟨semicolon, hts, hk⟩⟩ := h
  · rw [hrest] at hfront
    have hsentences := Sentences.bare hs (not_mem_continuing_front_of_append hfront) hus
    exact ⟨ws ++ us, by simp [hts, hrest], hsentences⟩
  · exact ⟨ws ++ semicolon :: us, by simp [hts, hrest], Sentences.ended hs hk hus⟩

mutual

theorem expression_sound (level : Level) (ts : List Token) {e : Expr} {rest : List Token}
    (h : (expression level ts).Yields e rest) : Expressed level ts e rest := by
  rw [expression] at h
  obtain ⟨left, mid, hm, hleft, hops⟩ := yields_andThen.1 h
  obtain ⟨us, m, h₁, hphrase, hu, hfront⟩ := operand_sound ts hleft
  obtain ⟨vs, h₂, hrest, hall⟩ := operators_sound level left mid hops hphrase hfront (Or.inr hu)
  exact ⟨us ++ vs, by rw [h₁, h₂, List.append_assoc], hrest, hall⟩
termination_by (ts.length, 1)
decreasing_by all_goals (simp only [Prod.lex_def, true_and]; omega)

theorem operand_sound (ts : List Token) {e : Expr} {rest : List Token}
    (h : (operand ts).Yields e rest) : Begun ts e rest := by
  cases hts : ts with
  | nil =>
    rw [hts, operand] at h
    exact absurd h not_yields_refused
  | cons t ts =>
    rw [hts, operand] at h
    split at h
    · next hk =>
      obtain ⟨rfl, rfl⟩ := yields_done.1 h
      exact begun_of_primary rfl (.ident hk)
    · next hk =>
      dsimp only at h
      split at h
      · next hn =>
        obtain ⟨rfl, rfl⟩ := yields_done.1 h
        exact begun_of_primary rfl (.int hk hn)
      · exact absurd h not_yields_refused
    · next hk =>
      obtain ⟨rfl, rfl⟩ := yields_done.1 h
      exact begun_of_primary rfl (.string hk)
    · next hk =>
      obtain ⟨rfl, rfl⟩ := yields_done.1 h
      exact begun_of_primary rfl (.trueWord hk)
    · next hk =>
      obtain ⟨rfl, rfl⟩ := yields_done.1 h
      exact begun_of_primary rfl (.falseWord hk)
    · next hk =>
      obtain ⟨right, ts₁, _, hright, h⟩ := yields_andThen.1 h
      obtain ⟨rfl, rfl⟩ := yields_done.1 h
      exact begun_of_expressed (by simp [hk]) (expression_sound .unary ts hright)
    · next hk =>
      obtain ⟨right, ts₁, _, hright, h⟩ := yields_andThen.1 h
      obtain ⟨rfl, rfl⟩ := yields_done.1 h
      exact begun_of_expressed (by simp [hk]) (expression_sound .unary ts hright)
    · next hk =>
      obtain ⟨inner, ts₁, _, hinner, h⟩ := yields_andThen.1 h
      obtain ⟨closing, ts₂, _, h₂, hc, h⟩ := yields_expect.1 h
      obtain ⟨rfl, rfl⟩ := yields_done.1 h
      obtain ⟨us, h₁, -, hphrase⟩ := (expression_sound .lowest ts hinner).of_lowest
      have hp := Primary.group hk hphrase hc
      exact begun_of_primary (by simp [h₁, h₂]) hp
    · next hk =>
      exact cond_sound t ts hk (yields_past.1 h)
    · next hk =>
      obtain ⟨opening, ts₁, _, h₁, ho, h⟩ := yields_expect.1 h
      obtain ⟨params, ts₂, _, hparams, h⟩ := yields_andThen.1 h
      obtain ⟨brace, ts₃, _, h₃, hb, h⟩ := yields_expect.1 h
      obtain ⟨body, ts₄, _, hbody, h⟩ := Reading.yields_andTry.1 h
      obtain ⟨rfl, rfl⟩ := yields_done.1 h
      obtain ⟨us, closing, h₂, hc, hnames⟩ := parameters_sound ts₁ hparams
      obtain ⟨vs, ending, h₄, he, hstmts⟩ := block_sound ts₃ hbody
      have hp := Primary.function hk ho hnames hc (Braced.mk hb hstmts he)
      exact begun_of_primary (by simp [h₁, h₂, h₃, h₄]) hp
    · next hk =>
      obtain ⟨es, hes, rfl⟩ := yields_map.1 (yields_past.1 h)
      obtain ⟨us, closing, h₁, hc, helements⟩ := elements_sound .bracketR ts (by decide) hes
      exact begun_of_primary (by simp [h₁]) (Primary.array hk helements hc)
    · next hk =>
      obtain ⟨ps, hps, rfl⟩ := yields_map.1 (yields_past.1 h)
      obtain ⟨us, closing, h₁, hc, hpairs⟩ := entries_sound ts hps
      exact begun_of_primary (by simp [h₁]) (Primary.hash hk hpairs hc)
    · exact absurd h not_yields_refused
termination_by (ts.length, 0)
decreasing_by all_goals (simp only [hts, Prod.lex_def, List.length_cons]; omega)

theorem cond_sound (word : Token) (ts : List Token) {e : Expr} {rest : List Token}
    (hword : word.kind = .ifWord)
    (h : (expect .parenL ts fun _ ts₁ _ => (expression .lowest ts₁).andThen fun test ts₂ _ =>
      expect .parenR ts₂ fun _ ts₃ _ => expect .braceL ts₃ fun _ ts₄ _ =>
        (block ts₄).andTry fun yes ts₅ _ =>
          if front ts₅ = .elseWord then
            expect .elseWord ts₅ fun _ ts₆ _ => expect .braceL ts₆ fun _ ts₇ _ =>
              (block ts₇).andTry fun no rest _ => done (.cond test yes (some no)) rest
          else done (.cond test yes none) ts₅).Yields e rest) : Begun (word :: ts) e rest := by
  obtain ⟨opening, ts₁, _, h₁, ho, h⟩ := yields_expect.1 h
  obtain ⟨test, ts₂, _, htest, h⟩ := yields_andThen.1 h
  obtain ⟨closing, ts₃, _, h₃, hc, h⟩ := yields_expect.1 h
  obtain ⟨brace, ts₄, _, h₄, hb, h⟩ := yields_expect.1 h
  obtain ⟨yes, ts₅, _, hyes, h⟩ := Reading.yields_andTry.1 h
  obtain ⟨us, h₂, -, hphrase⟩ := (expression_sound .lowest ts₁ htest).of_lowest
  obtain ⟨vs, ending, h₅, he, hstmts⟩ := block_sound ts₄ hyes
  have hbraced := Braced.mk hb hstmts he
  split at h
  · obtain ⟨other, ts₆, _, h₆, hother, h⟩ := yields_expect.1 h
    obtain ⟨brace', ts₇, _, h₇, hb', h⟩ := yields_expect.1 h
    obtain ⟨no, ts₈, _, hno, h⟩ := Reading.yields_andTry.1 h
    obtain ⟨rfl, rfl⟩ := yields_done.1 h
    obtain ⟨ws, ending', h₈, he', hstmts'⟩ := block_sound ts₇ hno
    have hbraced' := Braced.mk hb' hstmts' he'
    have hp := Primary.condElse hword ho hphrase hc hbraced hother hbraced'
    exact begun_of_primary (by simp [h₁, h₂, h₃, h₄, h₅, h₆, h₇, h₈]) hp
  · obtain ⟨rfl, rfl⟩ := yields_done.1 h
    have hp := Primary.cond hword ho hphrase hc hbraced
    exact begun_of_primary (by simp [h₁, h₂, h₃, h₄, h₅]) hp
termination_by (ts.length, 4)
decreasing_by all_goals (simp only [Prod.lex_def]; omega)

theorem operators_sound (level : Level) (left : Expr) (ts : List Token) {e : Expr}
    {us rest : List Token} {m : Level} (h : (operators level left ts).Yields e rest)
    (hleft : Phrase m us left) (hfront : (Level.ofKind (front ts)).rank ≤ m.rank)
    (hm : level.rank < m.rank ∨ Level.unary.rank ≤ m.rank) :
    ∃ vs, ts = vs ++ rest ∧ (Level.ofKind (front rest)).rank ≤ level.rank ∧
      ∀ n : Level, n.rank ≤ level.rank + 1 → n.rank ≤ Level.unary.rank → Phrase n (us ++ vs) e := by
  rw [operators] at h
  split at h
  · next hlt =>
    obtain ⟨op, ts₁, _, h₁, hop, h⟩ := yields_expect.1 h
    rw [← hop] at hlt hfront
    have hleft := hleft.loosen hfront
    split at h
    · next hk =>
      obtain ⟨args, ts₂, _, hargs, h⟩ := yields_andThen.1 h
      obtain ⟨ws, closing, h₂, hc, helements⟩ := elements_sound .parenR ts₁ (by decide) hargs
      rw [hk] at hleft
      have hcall := Phrase.call hleft hk helements hc
      obtain ⟨vs, h₃, hrest, hall⟩ := operators_sound level _ ts₂ h hcall (Level.rank_le_call _)
        (Or.inr (by decide))
      refine ⟨op :: ws ++ closing :: vs, by simp [h₁, h₂, h₃], hrest, fun n hn hu => ?_⟩
      simpa using hall n hn hu
    · next hk =>
      obtain ⟨index, ts₂, _, hindex, h⟩ := yields_andThen.1 h
      obtain ⟨closing, ts₃, _, h₃, hc, h⟩ := yields_expect.1 h
      obtain ⟨ws, h₂, -, hphrase⟩ := (expression_sound .lowest ts₁ hindex).of_lowest
      rw [hk] at hleft
      have hphrase := Phrase.index hleft hk hphrase hc
      obtain ⟨vs, h₄, hrest, hall⟩ := operators_sound level _ ts₃ h hphrase (Level.rank_le_call _)
        (Or.inr (by decide))
      refine ⟨op :: ws ++ closing :: vs, by simp [h₁, h₂, h₃, h₄], hrest, fun n hn hu => ?_⟩
      simpa using hall n hn hu
    · next hp hb =>
      obtain ⟨right, ts₂, _, hright, h⟩ := yields_andThen.1 h
      obtain ⟨ws, h₂, hfront₂, hphrase⟩ := expression_sound _ ts₁ hright
      have hmem := mem_infixes_ofKind (by omega) hp hb
      have hright := hphrase (Level.ofKind op.kind).tighter (rank_tighter_le _)
        (rank_tighter_le_unary hmem)
      have hbinary := Phrase.binary hmem hleft hright
      obtain ⟨vs, h₃, hrest, hall⟩ := operators_sound level _ ts₂ h hbinary hfront₂ (Or.inl hlt)
      refine ⟨op :: ws ++ vs, by simp [h₁, h₂, h₃], hrest, fun n hn hu => ?_⟩
      simpa using hall n hn hu
  · next hlt =>
    obtain ⟨rfl, rfl⟩ := yields_done.1 h
    refine ⟨[], rfl, by omega, fun n hn hu => ?_⟩
    rw [List.append_nil]
    exact hleft.loosen (by omega)
termination_by (ts.length, 0)
decreasing_by all_goals (simp only [Prod.lex_def]; omega)

theorem elements_sound (close : Kind) (ts : List Token) (hclose : close ≠ .eof) {es : List Expr}
    {rest : List Token} (h : (elements close ts).Yields es rest) :
    Enclosed close ts rest (Elements · es) := by
  rw [elements] at h
  split at h
  · next hf =>
    obtain ⟨rfl, rfl⟩ := yields_doneWith.1 h
    exact enclosed_nil hf hclose Elements.nil
  · obtain ⟨e, ts₁, _, he, h⟩ := yields_andThen.1 h
    obtain ⟨es', hmore, rfl⟩ := yields_map.1 h
    obtain ⟨us, h₁, -, hphrase⟩ := (expression_sound .lowest ts he).of_lowest
    obtain ⟨vs, closing, h₂, hc, helements⟩ := moreElements_sound close ts₁ hmore
    have helements := helements us e hphrase
    exact ⟨us ++ vs, closing, by rw [h₁, h₂, List.append_assoc], hc, helements⟩
termination_by (ts.length, 2)
decreasing_by all_goals (simp only [Prod.lex_def, true_and]; omega)

theorem moreElements_sound (close : Kind) (ts : List Token) {es : List Expr} {rest : List Token}
    (h : (moreElements close ts).Yields es rest) :
    Enclosed close ts rest fun us => ∀ vs e, Phrase .equality vs e → Elements (vs ++ us) (e :: es) := by
  rw [moreElements] at h
  split at h
  · obtain ⟨comma, ts₁, _, h₁, hcomma, h⟩ := yields_expect.1 h
    obtain ⟨e, ts₂, _, he, h⟩ := yields_andThen.1 h
    obtain ⟨es', hmore, rfl⟩ := yields_map.1 h
    obtain ⟨us, h₂, -, hphrase⟩ := (expression_sound .lowest ts₁ he).of_lowest
    obtain ⟨vs, closing, h₃, hc, helements⟩ := moreElements_sound close ts₂ hmore
    have helements := helements us e hphrase
    refine ⟨comma :: us ++ vs, closing, by simp [h₁, h₂, h₃], hc, fun ws f hf => ?_⟩
    exact Elements.cons hf hcomma helements (by simp)
  · obtain ⟨closing, ts₁, _, h₁, hc, h⟩ := yields_expect.1 h
    obtain ⟨rfl, rfl⟩ := yields_done.1 h
    refine ⟨[], closing, h₁, hc, fun vs e he => ?_⟩
    rw [List.append_nil]
    exact Elements.one he
termination_by (ts.length, 0)
decreasing_by all_goals (simp only [Prod.lex_def]; omega)

theorem entries_sound (ts : List Token) {pairs : List (Expr × Expr)} {rest : List Token}
    (h : (entries ts).Yields pairs rest) :
    Enclosed .braceR ts rest (Pairs · pairs) := by
  rw [entries] at h
  split at h
  · next hf =>
    obtain ⟨rfl, rfl⟩ := yields_doneWith.1 h
    exact enclosed_nil hf (by decide) Pairs.nil
  · obtain ⟨key, ts₁, _, hkey, h⟩ := yields_andThen.1 h
    obtain ⟨colon, ts₂, _, h₂, hcolon, h⟩ := yields_expect.1 h
    obtain ⟨value, ts₃, _, hvalue, h⟩ := yields_andThen.1 h
    obtain ⟨us, h₁, -, hphrase⟩ := (expression_sound .lowest ts hkey).of_lowest
    obtain ⟨vs, h₃, -, hphrase'⟩ := (expression_sound .lowest ts₂ hvalue).of_lowest
    split at h
    · next hf =>
      obtain ⟨rfl, rfl⟩ := yields_doneWith.1 h
      obtain ⟨t, ht, hk⟩ := exists_of_front_eq hf (by decide)
      refine ⟨us ++ colon :: vs, t, ?_, hk, Pairs.one hphrase hcolon hphrase'⟩
      rw [h₁, h₂, h₃, List.append_assoc, List.cons_append, ← ht]
    · obtain ⟨comma, ts₄, _, h₄, hcomma, h⟩ := yields_expect.1 h
      obtain ⟨pairs', hmore, rfl⟩ := yields_map.1 h
      obtain ⟨ws, closing, h₅, hc, hpairs⟩ := entries_sound ts₄ hmore
      refine ⟨us ++ colon :: vs ++ comma :: ws, closing, by simp [h₁, h₂, h₃, h₄, h₅], hc, ?_⟩
      exact Pairs.cons hphrase hcolon hphrase' hcomma hpairs
termination_by (ts.length, 2)
decreasing_by all_goals (simp only [Prod.lex_def, true_and]; omega)

theorem block_sound (ts : List Token) {stmts : List Stmt} {rest : List Token}
    (h : (block ts).Yields stmts rest) :
    Enclosed .braceR ts rest (Sentences · stmts) := by
  cases hts : ts with
  | nil =>
    rw [hts, block] at h
    exact absurd h.2.2 (by simp)
  | cons t ts =>
    rw [hts, block] at h
    split at h
    · next hk =>
      obtain ⟨rfl, rfl, -⟩ := h
      exact ⟨[], t, rfl, hk, Sentences.nil⟩
    · obtain ⟨o, ts₁, hlen, hstmt, h⟩ := Reading.yields_andThen.1 h
      have hlt : ts₁.length < ts.length + 1 := Nat.lt_succ_of_le hlen
      obtain ⟨stmts', hblock, rfl⟩ := Reading.yields_map.1 h
      obtain ⟨s, rfl, hstated⟩ := statement_sound (t :: ts) hstmt
      obtain ⟨us, closing, h₁, hc, hus⟩ := block_sound ts₁ hblock
      obtain ⟨ws, h₂, hws⟩ := hstated.sentences h₁ hus
      exact ⟨ws, closing, h₂, hc, hws⟩
termination_by (ts.length, 3)
decreasing_by all_goals (simp only [hts, Prod.lex_def, List.length_cons, true_and]; omega)

theorem statement_sound (ts : List Token) {o : Option Stmt} {rest : List Token}
    (h : (statement ts).Yields o rest) : ∃ s, o = some s ∧ Stated ts s rest := by
  cases hts : ts with
  | nil =>
    rw [hts, statement] at h
    obtain ⟨s, rfl, hs⟩ := (yields_orResume ((honest_expression _ _).map _)).1 h
    obtain ⟨e, he, -⟩ := yields_map.1 hs
    simp [expression, operand] at he
  | cons t ts =>
    rw [hts, statement] at h
    split at h
    · next hk =>
      have h := (yields_orSkip (honest_expect fun _ _ _ => honest_expect fun _ _ _ =>
        (honest_expression _ _).andThen fun _ _ _ => honest_ended _ _)).1 (Reading.yields_past.1 h)
      obtain ⟨s, rfl, hs⟩ := h
      obtain ⟨name, ts₁, _, h₁, hname, hs⟩ := yields_expect.1 hs
      obtain ⟨assign, ts₂, _, h₂, hassign, hs⟩ := yields_expect.1 hs
      obtain ⟨value, ts₃, _, hvalue, hs⟩ := yields_andThen.1 hs
      obtain ⟨us, h₃, hrest, hphrase⟩ := (expression_sound .lowest ts₂ hvalue).of_lowest
      have hbind := Sentence.bind hk hname hassign hphrase
      exact ⟨s, rfl, stated_of_ended hbind (by simp [h₁, h₂, h₃]) hrest hs⟩
    · next hk =>
      have h := (yields_orSkip ((honest_expression _ _).andThen fun _ _ _ => honest_ended _ _)).1
        (Reading.yields_past.1 h)
      obtain ⟨s, rfl, hs⟩ := h
      obtain ⟨value, ts₁, _, hvalue, hs⟩ := yields_andThen.1 hs
      obtain ⟨us, h₁, hrest, hphrase⟩ := (expression_sound .lowest ts hvalue).of_lowest
      have hgive := Sentence.give hk hphrase
      exact ⟨s, rfl, stated_of_ended hgive (by simp [h₁]) hrest hs⟩
    · have h := (yields_orResume ((honest_expression _ _).andThen fun _ _ _ => honest_ended _ _)).1 h
      obtain ⟨s, rfl, hs⟩ := h
      obtain ⟨value, ts₁, _, hvalue, hs⟩ := yields_andThen.1 hs
      obtain ⟨us, h₁, hrest, hphrase⟩ := (expression_sound .lowest (t :: ts) hvalue).of_lowest
      have hexpr := Sentence.expr hphrase
      exact ⟨s, rfl, stated_of_ended hexpr h₁ hrest hs⟩
termination_by (ts.length, 2)
decreasing_by all_goals (simp only [hts, Prod.lex_def, List.length_cons, true_and]; omega)

end

theorem program_sound (ts : List Token) {stmts : List Stmt} {rest : List Token}
    (h : (program ts).Yields stmts rest) : rest = [] ∧ Sentences ts stmts := by
  cases hts : ts with
  | nil =>
    rw [hts, program] at h
    obtain ⟨rfl, rfl, -⟩ := h
    exact ⟨rfl, Sentences.nil⟩
  | cons t ts =>
    rw [hts, program] at h
    obtain ⟨o, ts₁, hlen, hstmt, h⟩ := Reading.yields_andThen.1 h
    have hlt : ts₁.length < ts.length + 1 := Nat.lt_succ_of_le hlen
    obtain ⟨stmts', hprogram, rfl⟩ := Reading.yields_map.1 h
    obtain ⟨s, rfl, hstated⟩ := statement_sound (t :: ts) hstmt
    obtain ⟨hrest, hus⟩ := program_sound ts₁ hprogram
    obtain ⟨ws, hws, hsentences⟩ := hstated.sentences (List.append_nil ts₁).symm hus
    rw [List.append_nil] at hws
    exact ⟨hrest, hws ▸ hsentences⟩
termination_by ts.length
decreasing_by simp only [hts, List.length_cons]; omega

end Monkey.Parse
