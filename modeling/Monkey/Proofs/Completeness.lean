import Monkey.Proofs.Soundness

namespace Monkey.Parse
open Attempt

/-- The tokens that can begin an expression. -/
def starters : List Kind :=
  [.ident, .int, .string, .trueWord, .falseWord, .bang, .minus, .parenL, .ifWord, .fnWord, .bracketL,
    .braceL]

theorem Primary.starts {ts : List Token} {e : Expr} (h : Primary ts e) :
    ∃ t us, ts = t :: us ∧ t.kind ∈ starters := by
  cases h with
  | ident hk | int hk | string hk | trueWord hk | falseWord hk | group hk | cond hk | condElse hk
  | function hk | array hk | hash hk => exact ⟨_, _, rfl, by rw [hk]; decide⟩

theorem Phrase.starts {level : Level} {ts : List Token} {e : Expr} :
    Phrase level ts e → ∃ t us, ts = t :: us ∧ t.kind ∈ starters
  | .tighter h => h.starts
  | .binary _ h _ => by
    obtain ⟨t, us, rfl, hk⟩ := h.starts
    exact ⟨t, _, rfl, hk⟩
  | .unary hop _ => by
    refine ⟨_, _, rfl, ?_⟩
    simp only [List.mem_cons, List.not_mem_nil, or_false] at hop
    obtain hk | hk := hop <;> rw [hk] <;> decide
  | .call h _ _ _ => by
    obtain ⟨t, us, rfl, hk⟩ := h.starts
    exact ⟨t, _, rfl, hk⟩
  | .index h _ _ _ => by
    obtain ⟨t, us, rfl, hk⟩ := h.starts
    exact ⟨t, _, rfl, hk⟩
  | .primary h => h.starts

theorem Phrase.front_ne {level : Level} {ts us : List Token} {e : Expr} {k : Kind}
    (h : Phrase level ts e) (hk : k ∉ starters) : front (ts ++ us) ≠ k := by
  obtain ⟨t, vs, rfl, ht⟩ := h.starts
  rintro rfl
  exact hk ht

theorem Sentence.starts {ts : List Token} {s : Stmt} (h : Sentence ts s) :
    ∃ t us, ts = t :: us ∧ t.kind ∈ .letWord :: .returnWord :: starters := by
  cases h with
  | bind hk | give hk => exact ⟨_, _, rfl, by simp [hk]⟩
  | expr h =>
    obtain ⟨t, us, rfl, hk⟩ := h.starts
    exact ⟨t, us, rfl, by simp [hk]⟩

theorem Sentence.front_ne {ts us : List Token} {s : Stmt} {k : Kind} (h : Sentence ts s)
    (hk : k ∉ .letWord :: .returnWord :: starters) : front (ts ++ us) ≠ k := by
  obtain ⟨t, vs, rfl, ht⟩ := h.starts
  rintro rfl
  exact hk ht

theorem Sentences.front_ne {ts us : List Token} {stmts : List Stmt} {k : Kind}
    (h : Sentences ts stmts) (hk : k ∉ .letWord :: .returnWord :: starters) (hus : front us ≠ k) :
    front (ts ++ us) ≠ k := by
  cases h with
  | nil => exact hus
  | ended hs | bare hs =>
    rw [List.append_assoc]
    exact hs.front_ne hk

theorem rank_le_tighter (level : Level) : level.rank ≤ level.tighter.rank := by
  cases level <;> decide

theorem lt_rank_tighter {k : Kind} {level : Level} (h : k ∈ level.infixes) :
    level.rank < level.tighter.rank := by
  cases level <;> simp_all [Level.infixes, Level.tighter, Level.rank]

/-- No expression goes on with what is left. -/
def Closes (rest : List Token) : Prop :=
  front rest ∉ continuing ∧ front rest ≠ .elseWord

/-- The tokens after which an expression is over. -/
def closers : List Kind :=
  [.parenR, .bracketR, .braceR, .comma, .colon, .semicolon]

theorem closes_nil : Closes [] :=
  ⟨by decide, by decide⟩

theorem closes_cons {t : Token} {ts : List Token} {k : Kind} (h : t.kind = k) (hk : k ∈ closers) :
    Closes (t :: ts) := by
  subst h
  simp only [closers, List.mem_cons, List.not_mem_nil, or_false] at hk
  obtain h | h | h | h | h | h := hk <;> simp [Closes, h, continuing]

/-- What closes a list ends its last element, and neither opens an element nor separates two. -/
theorem ends_list {close : Kind} (h : close = .parenR ∨ close = .bracketR) :
    close ∈ closers ∧ close ∉ starters ∧ close ≠ .comma := by
  obtain rfl | rfl := h <;> decide

/-- The statements that follow a statement without a semicolon do not carry it on. -/
theorem closes_append {us ws : List Token} {stmts : List Stmt} (hus : front us ∉ continuing)
    (h : Sentences us stmts) (hws : Closes ws) : Closes (us ++ ws) := by
  refine ⟨?_, h.front_ne (by decide) hws.2⟩
  cases us with
  | nil => exact hws.1
  | cons t us => exact hus

theorem Closes.rank_le {rest : List Token} (h : Closes rest) {n : Nat} :
    (Level.ofKind (front rest)).rank ≤ n := by
  rw [(rank_ofKind_eq_zero_iff _).2 h.1]
  exact Nat.zero_le n

-- The steps of the parser

/-- Nothing is joined to an operand before a token that does not hold tight enough. -/
theorem operators_stop {level : Level} {e : Expr} {ts : List Token}
    (h : (Level.ofKind (front ts)).rank ≤ level.rank) : (operators level e ts).Yields e ts := by
  rw [operators, if_neg (by omega)]
  exact yields_done.2 ⟨rfl, rfl⟩

theorem operators_binary {level : Level} {left right e : Expr} {op : Token}
    {ts mid rest : List Token} (hop : op.kind ∈ (Level.ofKind op.kind).infixes)
    (hlevel : level.rank < (Level.ofKind op.kind).rank)
    (hright : (expression (Level.ofKind op.kind) ts).Yields right mid)
    (h : (operators level (.binary left op right) mid).Yields e rest) :
    (operators level left (op :: ts)).Yields e rest := by
  rw [operators, front_cons, if_pos hlevel]
  refine yields_expect_cons.2 ⟨rfl, ?_⟩
  split
  · next hk => simp [hk, Level.ofKind, Level.infixes] at hop
  · next hk => simp [hk, Level.ofKind, Level.infixes] at hop
  · exact hright.andThen h

theorem operators_call {level : Level} {callee e : Expr} {args : List Expr} {opening : Token}
    {ts mid rest : List Token} (hk : opening.kind = .parenL)
    (hlevel : level.rank < (Level.ofKind .parenL).rank) (hargs : (elements .parenR ts).Yields args mid)
    (h : (operators level (.call callee args) mid).Yields e rest) :
    (operators level callee (opening :: ts)).Yields e rest := by
  rw [operators, front_cons, hk, if_pos hlevel]
  refine yields_expect_cons.2 ⟨hk, ?_⟩
  split
  · exact hargs.andThen h
  · next hk' => simp [hk] at hk'
  · next hk' _ => simp [hk] at hk'

theorem operators_index {level : Level} {left index e : Expr} {opening closing : Token}
    {ts mid rest : List Token} (hk : opening.kind = .bracketL)
    (hlevel : level.rank < (Level.ofKind .bracketL).rank)
    (hindex : (expression .lowest ts).Yields index (closing :: mid)) (hc : closing.kind = .bracketR)
    (h : (operators level (.index left index) mid).Yields e rest) :
    (operators level left (opening :: ts)).Yields e rest := by
  rw [operators, front_cons, hk, if_pos hlevel]
  refine yields_expect_cons.2 ⟨hk, ?_⟩
  split
  · next hk' => simp [hk] at hk'
  · exact hindex.andThen (yields_expect_cons.2 ⟨hc, h⟩)
  · next hk' => simp [hk] at hk'

theorem operand_unary {op : Token} {ts rest : List Token} {right : Expr}
    (hop : op.kind ∈ [.bang, .minus]) (h : (expression .unary ts).Yields right rest) :
    (operand (op :: ts)).Yields (.unary op right) rest := by
  simp only [List.mem_cons, List.not_mem_nil, or_false] at hop
  obtain hk | hk := hop <;>
    simp only [operand, hk] <;>
    exact h.andThen (yields_done.2 ⟨rfl, rfl⟩)

theorem expression_of_operand {level : Level} {ts mid rest : List Token} {left e : Expr}
    (hleft : (operand ts).Yields left mid) (h : (operators level left mid).Yields e rest) :
    (expression level ts).Yields e rest := by
  rw [expression]
  exact hleft.andThen h

theorem moreElements_of_elements {close : Kind} {comma : Token} {ts rest : List Token}
    {es : List Expr} (hcomma : comma.kind = .comma) (hes : es ≠ [])
    (h : (elements close ts).Yields es rest) :
    (moreElements close (comma :: ts)).Yields es rest := by
  rw [elements] at h
  rw [moreElements, front_cons, if_pos hcomma]
  refine yields_expect_cons.2 ⟨hcomma, ?_⟩
  split at h
  · exact absurd (yields_doneWith.1 h).1 hes
  · exact h

theorem moreParameters_of_parameters {comma : Token} {ts rest : List Token} {names : List Ident}
    (hcomma : comma.kind = .comma) (hnames : names ≠ [])
    (h : (parameters ts).Yields names rest) : (moreParameters (comma :: ts)).Yields names rest := by
  rw [parameters] at h
  rw [moreParameters, front_cons, if_pos hcomma]
  refine yields_expect_cons.2 ⟨hcomma, ?_⟩
  split at h
  · exact absurd (yields_doneWith.1 h).1 hnames
  · exact h

theorem parameters_complete {ts rest : List Token} {names : List Ident} {closing : Token}
    (h : Names ts names) (hc : closing.kind = .parenR) :
    (parameters (ts ++ closing :: rest)).Yields names rest := by
  induction h with
  | nil =>
    rw [List.nil_append, parameters, front_cons, if_pos hc]
    exact yields_doneWith.2 ⟨rfl, rfl⟩
  | one hk =>
    rw [parameters, if_neg (by simp [front, hk])]
    refine yields_expect_cons.2 ⟨hk, yields_map.2 ⟨[], ?_, rfl⟩⟩
    simp only [List.nil_append, List.append_eq]
    rw [moreParameters, if_neg (by simp [hc])]
    exact yields_expect_cons.2 ⟨hc, yields_done.2 ⟨rfl, rfl⟩⟩
  | cons hk hcomma _ hne ih =>
    rw [parameters, if_neg (by simp [front, hk])]
    have hmore := moreParameters_of_parameters hcomma hne ih
    exact yields_expect_cons.2 ⟨hk, yields_map.2 ⟨_, hmore, rfl⟩⟩

theorem ended_yields_of_ne {s : Stmt} {ts : List Token} (h : front ts ≠ .semicolon) :
    (ended s ts).Yields s ts := by
  rw [ended, if_neg h]
  exact yields_done.2 ⟨rfl, rfl⟩

theorem ended_yields_cons {s : Stmt} {semicolon : Token} {ts : List Token}
    (h : semicolon.kind = .semicolon) : (ended s (semicolon :: ts)).Yields s ts := by
  rw [ended, front_cons, if_pos h]
  exact yields_doneWith.2 ⟨rfl, rfl⟩

theorem block_yields_cons {s : Stmt} {stmts : List Stmt} {ts mid rest : List Token}
    (hk : front ts ≠ .braceR) (hne : ts ≠ []) (hs : (statement ts).Yields (some s) mid)
    (h : (block mid).Yields stmts rest) : (block ts).Yields (s :: stmts) rest := by
  cases ts with
  | nil => exact absurd rfl hne
  | cons t ts =>
    rw [block, if_neg (by exact hk)]
    exact hs.andThen (Reading.yields_map.2 ⟨_, h, rfl⟩)

theorem program_yields_cons {s : Stmt} {stmts : List Stmt} {ts mid rest : List Token}
    (hne : ts ≠ []) (hs : (statement ts).Yields (some s) mid)
    (h : (program mid).Yields stmts rest) : (program ts).Yields (s :: stmts) rest := by
  cases ts with
  | nil => exact absurd rfl hne
  | cons t ts =>
    rw [program]
    exact hs.andThen (Reading.yields_map.2 ⟨_, h, rfl⟩)

-- What the grammar derives is read

/-- Wherever the tokens of an expression stand, the parser reads it and goes on with the operators
after it. -/
def Accepted (n : Level) (ts : List Token) (e : Expr) : Prop :=
  ∀ (level : Level) (rest rest' : List Token) (e' : Expr), level.rank ≤ Level.unary.rank →
    (level.rank < n.rank ∨ n = .unary) → (Level.ofKind (front rest)).rank ≤ n.rank →
    front rest ≠ .elseWord → (operators level e rest).Yields e' rest' →
    (expression level (ts ++ rest)).Yields e' rest'

theorem Accepted.yields_lowest {ts rest : List Token} {e : Expr} (h : Accepted .equality ts e)
    (hrest : Closes rest) : (expression .lowest (ts ++ rest)).Yields e rest :=
  h _ _ _ _ (by decide) (Or.inl (by decide)) hrest.rank_le hrest.2 (operators_stop hrest.rank_le)

theorem Accepted.tighter {n : Level} {ts : List Token} {e : Expr} (h : Accepted n.tighter ts e) :
    Accepted n ts e := by
  intro level rest rest' e' hlevel hn hrest helse hops
  have hle := rank_le_tighter n
  refine h _ _ _ _ hlevel (Or.inl ?_) (Nat.le_trans hrest hle) helse hops
  obtain hlt | rfl := hn
  · exact Nat.lt_of_lt_of_le hlt hle
  · exact Nat.lt_succ_of_le hlevel

theorem Accepted.binary {n : Level} {op : Token} {ts us : List Token} {left right : Expr}
    (hop : op.kind ∈ n.infixes) (hleft : Accepted n ts left) (hright : Accepted n.tighter us right) :
    Accepted n (ts ++ op :: us) (.binary left op right) := by
  intro level rest rest' e' hlevel hn hrest helse hops
  have hkind := ofKind_eq_of_mem_infixes hop
  have htighter := lt_rank_tighter hop
  have hu := rank_tighter_le_unary hop
  have hlt : level.rank < n.rank := by
    obtain hlt | rfl := hn
    · exact hlt
    · simp [Level.infixes] at hop
  -- the right operand is read at the operator's own level, so it takes only what binds tighter
  have hr := hright n _ _ _ (by omega) (Or.inl htighter) (by omega) helse (operators_stop hrest)
  rw [List.append_assoc]
  refine hleft _ _ _ _ hlevel hn ?_ ?_ ?_
  · simp [hkind]
  · intro he
    simp only [List.cons_append, front_cons] at he
    rw [he] at hop hkind
    rw [← hkind] at hop
    exact absurd hop (by decide)
  · subst hkind
    exact operators_binary hop hlt hr hops

theorem Accepted.unary {op : Token} {ts : List Token} {right : Expr} (hop : op.kind ∈ [.bang, .minus])
    (hright : Accepted .unary ts right) : Accepted .unary (op :: ts) (.unary op right) := by
  intro level rest rest' e' hlevel hn hrest helse hops
  -- what binds tighter than a unary operator is a call or an index, which the operand takes first
  have hr := hright .unary _ _ _ (Nat.le_refl _) (Or.inr rfl) hrest helse (operators_stop hrest)
  exact expression_of_operand (operand_unary hop hr) hops

mutual

theorem Phrase.accepted {n : Level} {ts : List Token} {e : Expr} : Phrase n ts e → Accepted n ts e
  | .tighter h => h.accepted.tighter
  | .binary hop hleft hright => .binary hop hleft.accepted hright.accepted
  | .unary hop hright => .unary hop hright.accepted
  | .call hcallee hk hargs hc => by
    intro level rest rest' e' hlevel hn hrest helse hops
    rw [List.append_assoc, List.append_assoc]
    refine hcallee.accepted _ _ _ _ hlevel hn ?_ ?_ ?_
    · simp [hk, Level.ofKind]
    · simp [hk]
    · refine operators_call hk (Nat.lt_succ_of_le hlevel) ?_ hops
      exact hargs.elements_yields (Or.inl rfl) hc
  | .index hleft hk hindex hc => by
    intro level rest rest' e' hlevel hn hrest helse hops
    rw [List.append_assoc, List.append_assoc]
    refine hleft.accepted _ _ _ _ hlevel hn ?_ ?_ ?_
    · simp [hk, Level.ofKind]
    · simp [hk]
    · refine operators_index hk (Nat.lt_succ_of_le hlevel) ?_ hc hops
      exact hindex.accepted.yields_lowest (closes_cons hc (by decide))
  | .primary h => by
    intro level rest rest' e' hlevel hn hrest helse hops
    exact expression_of_operand (h.operand_yields helse) hops

theorem Primary.operand_yields {ts rest : List Token} {e : Expr} :
    Primary ts e → front rest ≠ .elseWord → (operand (ts ++ rest)).Yields e rest
  | .ident hk, _ | .string hk, _ | .trueWord hk, _ | .falseWord hk, _ => by
    simp only [List.cons_append, List.nil_append, operand, hk]
    exact yields_done.2 ⟨rfl, rfl⟩
  | .int hk hn, _ => by
    simp only [List.cons_append, List.nil_append, operand, hk, if_pos hn]
    exact yields_done.2 ⟨rfl, rfl⟩
  | .group hk hphrase hc, _ => by
    rw [List.append_assoc, List.cons_append, List.singleton_append]
    simp only [operand, hk]
    refine Yields.andThen (hphrase.accepted.yields_lowest (closes_cons hc (by decide))) ?_
    exact yields_expect_cons.2 ⟨hc, yields_done.2 ⟨rfl, rfl⟩⟩
  | .cond hk ho hphrase hc hyes, helse => by
    obtain ⟨brace, us, rfl, hb, hblock⟩ := hyes.block_yields
    rw [List.append_assoc]
    simp only [List.cons_append, operand, hk]
    refine yields_expect_cons.2 ⟨ho, ?_⟩
    refine Yields.andThen (hphrase.accepted.yields_lowest (closes_cons hc (by decide))) ?_
    refine yields_expect_cons.2 ⟨hc, yields_expect_cons.2 ⟨hb, (hblock rest).andTry ?_⟩⟩
    rw [if_neg helse]
    exact yields_done.2 ⟨rfl, rfl⟩
  | .condElse hk ho hphrase hc hyes he hno, _ => by
    obtain ⟨brace, us, rfl, hb, hblock⟩ := hyes.block_yields
    obtain ⟨brace', us', rfl, hb', hblock'⟩ := hno.block_yields
    rw [List.append_assoc, List.append_assoc]
    simp only [List.cons_append, operand, hk]
    refine yields_expect_cons.2 ⟨ho, ?_⟩
    refine Yields.andThen (hphrase.accepted.yields_lowest (closes_cons hc (by decide))) ?_
    refine yields_expect_cons.2 ⟨hc, yields_expect_cons.2 ⟨hb, (hblock _).andTry ?_⟩⟩
    rw [front_cons, if_pos he]
    refine yields_expect_cons.2 ⟨he, yields_expect_cons.2 ⟨hb', (hblock' rest).andTry ?_⟩⟩
    exact yields_done.2 ⟨rfl, rfl⟩
  | .function hk ho hnames hc hbody, _ => by
    obtain ⟨brace, us, rfl, hb, hblock⟩ := hbody.block_yields
    rw [List.append_assoc]
    simp only [List.cons_append, operand, hk]
    refine yields_expect_cons.2 ⟨ho, Yields.andThen (parameters_complete hnames hc) ?_⟩
    refine yields_expect_cons.2 ⟨hb, (hblock rest).andTry ?_⟩
    exact yields_done.2 ⟨rfl, rfl⟩
  | .array hk helements hc, _ => by
    rw [List.append_assoc, List.cons_append, List.singleton_append]
    simp only [operand, hk]
    exact yields_map.2 ⟨_, helements.elements_yields (Or.inr rfl) hc, rfl⟩
  | .hash hk hpairs hc, _ => by
    rw [List.append_assoc, List.cons_append, List.singleton_append]
    simp only [operand, hk]
    exact yields_map.2 ⟨_, hpairs.entries_yields hc, rfl⟩

theorem Elements.elements_yields {close : Kind} {ts rest : List Token} {es : List Expr}
    {closing : Token} :
    Elements ts es → close = .parenR ∨ close = .bracketR → closing.kind = close →
      (elements close (ts ++ closing :: rest)).Yields es rest
  | .nil, _, hc => by
    rw [List.nil_append, elements, front_cons, if_pos hc]
    exact yields_doneWith.2 ⟨rfl, rfl⟩
  | .one h, hclose, hc => by
    obtain ⟨hcloser, hstarter, hcomma⟩ := ends_list hclose
    rw [elements, if_neg (h.front_ne hstarter)]
    refine Yields.andThen (h.accepted.yields_lowest (closes_cons hc hcloser)) ?_
    refine yields_map.2 ⟨[], ?_, rfl⟩
    rw [moreElements, front_cons, hc, if_neg hcomma]
    exact yields_expect_cons.2 ⟨hc, yields_done.2 ⟨rfl, rfl⟩⟩
  | .cons h hcomma hes hne, hclose, hc => by
    rw [List.append_assoc, elements, if_neg (h.front_ne (ends_list hclose).2.1)]
    refine Yields.andThen (h.accepted.yields_lowest (closes_cons hcomma (by decide))) ?_
    refine yields_map.2 ⟨_, ?_, rfl⟩
    exact moreElements_of_elements hcomma hne (hes.elements_yields hclose hc)

theorem Pairs.entries_yields {ts rest : List Token} {pairs : List (Expr × Expr)} {closing : Token} :
    Pairs ts pairs → closing.kind = .braceR → (entries (ts ++ closing :: rest)).Yields pairs rest
  | .nil, hc => by
    rw [List.nil_append, entries, front_cons, if_pos hc]
    exact yields_doneWith.2 ⟨rfl, rfl⟩
  | .one hkey hcolon hvalue, hc => by
    rw [List.append_assoc, entries, if_neg (hkey.front_ne (by decide))]
    refine Yields.andThen (hkey.accepted.yields_lowest (closes_cons hcolon (by decide))) ?_
    refine yields_expect_cons.2 ⟨hcolon, ?_⟩
    refine Yields.andThen (hvalue.accepted.yields_lowest (closes_cons hc (by decide))) ?_
    rw [front_cons, if_pos hc]
    exact yields_doneWith.2 ⟨rfl, rfl⟩
  | .cons hkey hcolon hvalue hcomma hpairs, hc => by
    rw [List.append_assoc, List.append_assoc, List.cons_append, List.cons_append, entries,
      if_neg (hkey.front_ne (by decide))]
    refine Yields.andThen (hkey.accepted.yields_lowest (closes_cons hcolon (by decide))) ?_
    refine yields_expect_cons.2 ⟨hcolon, ?_⟩
    refine Yields.andThen (hvalue.accepted.yields_lowest (closes_cons hcomma (by decide))) ?_
    rw [front_cons, if_neg (by simp [hcomma])]
    exact yields_expect_cons.2 ⟨hcomma, yields_map.2 ⟨_, hpairs.entries_yields hc, rfl⟩⟩

theorem Braced.block_yields {ts : List Token} {stmts : List Stmt} :
    Braced ts stmts → ∃ opening us, ts = opening :: us ∧ opening.kind = .braceL ∧
      ∀ rest, (block (us ++ rest)).Yields stmts rest
  | .mk ho hstmts hc => by
    refine ⟨_, _, rfl, ho, fun rest => ?_⟩
    show (block (_ ++ [_] ++ rest)).Yields stmts rest
    rw [List.append_assoc]
    exact hstmts.block_yields hc

theorem Sentence.statement_yields {ts rest rest' : List Token} {s : Stmt} :
    Sentence ts s → Closes rest → (ended s rest).Yields s rest' →
      (statement (ts ++ rest)).Yields (some s) rest'
  | .bind hword hname hassign hvalue, hcloses, h => by
    simp only [List.cons_append, statement, hword]
    refine Reading.yields_past.2 (Yields.orSkip ?_)
    refine yields_expect_cons.2 ⟨hname, yields_expect_cons.2 ⟨hassign, ?_⟩⟩
    exact Yields.andThen (hvalue.accepted.yields_lowest hcloses) h
  | .give hword hvalue, hcloses, h => by
    simp only [List.cons_append, statement, hword]
    refine Reading.yields_past.2 (Yields.orSkip ?_)
    exact Yields.andThen (hvalue.accepted.yields_lowest hcloses) h
  | .expr hvalue, hcloses, h => by
    have hv := hvalue.accepted.yields_lowest hcloses
    obtain ⟨t, us, rfl, hk⟩ := hvalue.starts
    rw [List.cons_append, statement]
    split
    · next hk' => simp [hk', starters] at hk
    · next hk' => simp [hk', starters] at hk
    · exact Yields.orResume (Yields.andThen hv h)

theorem Sentences.block_yields {ts rest : List Token} {stmts : List Stmt} {closing : Token} :
    Sentences ts stmts → closing.kind = .braceR → (block (ts ++ closing :: rest)).Yields stmts rest
  | .nil, hc => by
    rw [List.nil_append, block, if_pos hc]
    exact ⟨rfl, rfl, rfl⟩
  | .ended hs hk hstmts, hc => by
    rw [List.append_assoc]
    refine block_yields_cons (hs.front_ne (by decide)) (by simp) ?_ (hstmts.block_yields hc)
    exact hs.statement_yields (closes_cons hk (by decide)) (ended_yields_cons hk)
  | .bare hs hk hstmts, hc => by
    rw [List.append_assoc]
    refine block_yields_cons (hs.front_ne (by decide)) (by simp) ?_ (hstmts.block_yields hc)
    refine hs.statement_yields (closes_append hk hstmts (closes_cons hc (by decide))) ?_
    exact ended_yields_of_ne (hstmts.front_ne (by decide) (by simp [hc]))

end

theorem Sentences.program_yields {ts : List Token} {stmts : List Stmt} (h : Sentences ts stmts) :
    (program ts).Yields stmts [] := by
  cases h with
  | nil =>
    rw [program]
    exact ⟨rfl, rfl, rfl⟩
  | ended hs hk hstmts =>
    refine program_yields_cons (by simp) ?_ hstmts.program_yields
    exact hs.statement_yields (closes_cons hk (by decide)) (ended_yields_cons hk)
  | @bare _ us _ _ hs hk hstmts =>
    -- the end of the text closes a statement, as a brace does in a block
    have hcloses : Closes us := List.append_nil us ▸ closes_append hk hstmts closes_nil
    have hne : front us ≠ .semicolon := List.append_nil us ▸ hstmts.front_ne (by decide) (by decide)
    obtain ⟨t, vs, hts, -⟩ := hs.starts
    refine program_yields_cons (by simp [hts]) ?_ hstmts.program_yields
    exact hs.statement_yields hcloses (ended_yields_of_ne hne)
termination_by ts.length
decreasing_by
  · simp only [List.length_append, List.length_cons]
    omega
  · simp only [hts, List.length_append, List.length_cons]
    omega

end Monkey.Parse
