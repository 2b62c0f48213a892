import Monkey.Proofs.Completeness
import Monkey.Proofs.Verdict
import Monkey.Proofs.Writing

namespace Monkey

/-- A token of the kind. Names and strings are all `x`. -/
def Token.sample (k : Kind) : Token :=
  .synthetic k (k.spelling?.getD "x")

theorem Token.kind_sample (k : Kind) : (sample k).kind = k :=
  rfl

/-- The kinds of which there is a sample that can be written. -/
def Kind.sampled : List Kind :=
  all.filter fun k => k ∉ [none, int, eof]

theorem Token.sample_isWritable : ∀ k ∈ Kind.sampled, (sample k).IsWritable := by
  have hx : ∀ k ∈ Kind.all, k.spelling? ≠ some "x" := by decide
  have hword : Text.isWord "x".toList := by decide
  have hquote : '"' ∉ "x".toList := by decide
  intro k hk
  cases k with
  | ident => exact ⟨hword, fun k => hx k k.mem_all⟩
  | string => exact hquote
  | none | int | eof => exact absurd hk (by decide)
  | _ => exact rfl

namespace Parse

/-- Some tokens that can be written come after these such that `P` holds of all of them. -/
def Completes (P : List Token → Prop) (us : List Token) : Prop :=
  ∃ vs : List Token, (∀ v ∈ vs, v.IsWritable) ∧ P (us ++ vs)

section completes

variable {P Q : List Token → Prop} {us us' : List Token}

theorem sampled_isWritable {ks : List Kind} (hks : ∀ k ∈ ks, k ∈ Kind.sampled) :
    ∀ v ∈ ks.map Token.sample, v.IsWritable :=
  List.forall_mem_map.2 fun k hk => Token.sample_isWritable k (hks k hk)

theorem Completes.of_kinds (ks : List Kind) (hks : ∀ k ∈ ks, k ∈ Kind.sampled)
    (h : P (us ++ ks.map .sample)) : Completes P us :=
  ⟨ks.map .sample, sampled_isWritable hks, h⟩

/-- What completes a part is followed by samples that complete the whole. -/
theorem Completes.extend (h : Completes P us) (ks : List Kind) (hks : ∀ k ∈ ks, k ∈ Kind.sampled)
    (hPQ : ∀ vs, P (us ++ vs) → Q (us' ++ (vs ++ ks.map .sample))) : Completes Q us' := by
  obtain ⟨vs, hvs, hP⟩ := h
  exact ⟨vs ++ ks.map .sample, List.forall_mem_append.2 ⟨hvs, sampled_isWritable hks⟩, hPQ vs hP⟩

theorem Completes.mono (h : Completes P us) (hPQ : ∀ vs, P (us ++ vs) → Q (us' ++ vs)) : Completes Q us' := by
  obtain ⟨vs, hvs, hP⟩ := h
  exact ⟨vs, hvs, hPQ vs hP⟩

end completes

/-- The tokens spell an expression of this level or a tighter one. -/
def IsPhrase (n : Level) (ts : List Token) : Prop :=
  ∃ e, Phrase n ts e

def IsPrimary (ts : List Token) : Prop :=
  ∃ e, Primary ts e

def AreNames (ts : List Token) : Prop :=
  ∃ names, Names ts names

def AreElements (ts : List Token) : Prop :=
  ∃ es, Elements ts es

def ArePairs (ts : List Token) : Prop :=
  ∃ pairs, Pairs ts pairs

def IsSentence (ts : List Token) : Prop :=
  ∃ s, Sentence ts s

def AreSentences (ts : List Token) : Prop :=
  ∃ stmts, Sentences ts stmts

theorem IsPrimary.isPhrase {ts : List Token} (h : IsPrimary ts) (n : Level) : IsPhrase n ts := by
  obtain ⟨e, he⟩ := h
  exact ⟨e, (Phrase.primary he).loosen n.rank_le_call⟩

theorem phrase_sample (n : Level) : Phrase n [.sample .ident] (.ident (.ofToken (.sample .ident))) :=
  (Phrase.primary (.ident rfl)).loosen n.rank_le_call

theorem Names.ne_nil {t : Token} {ts : List Token} {names : List Ident} (h : Names (t :: ts) names) :
    names ≠ [] := by
  cases h with
  | one | cons => exact List.cons_ne_nil _ _

theorem Elements.ne_nil {ts : List Token} {es : List Expr} (h : Elements ts es) (hts : ts ≠ []) : es ≠ [] := by
  cases h with
  | nil => exact absurd rfl hts
  | one | cons => exact List.cons_ne_nil _ _

/-- What is enclosed ends with the closing token, after tokens of which `P` holds. -/
theorem Enclosed.split {close : Kind} {us x : List Token} {P : List Token → Prop}
    (h : Enclosed close (us ++ x) x P) : ∃ vs closing, us = vs ++ [closing] ∧ closing.kind = close ∧ P vs := by
  obtain ⟨vs, closing, hsplit, hclosing, hP⟩ := h
  rw [List.append_cons] at hsplit
  exact ⟨vs, closing, List.append_cancel_right hsplit, hclosing, hP⟩

theorem Expressed.split {us x : List Token} {e : Expr} (h : Expressed .lowest (us ++ x) e x) :
    Phrase .equality us e := by
  obtain ⟨vs, hsplit, -, hphrase⟩ := h.of_lowest
  rwa [List.append_cancel_right hsplit]

theorem moreParameters_verdict (ts : List Token) :
    Verdict (fun ts => (moreParameters ts).report)
      (fun us => ∀ t : Token, t.kind = .ident → Completes AreNames (t :: us)) ts := by
  refine .congr (fun y _ => congrArg Attempt.report (moreParameters.eq_def y)) ?_
  refine Attempt.verdict_ite (fun _ => ?_) fun _ => ?_
  · refine verdict_expect (fun t ht => ?_) fun comma ts₁ h₁ hcomma => ?_
    · exact .of_kinds [] nofun ⟨_, .one ht⟩
    refine verdict_expect (fun t ht => ?_) fun name ts₂ h₂ hname => ?_
    · exact .of_kinds [.ident] (by decide) ⟨_, .cons ht hcomma (.one rfl) (List.cons_ne_nil _ _)⟩
    refine Attempt.verdict_map ((moreParameters_verdict ts₂).mono fun us _ _ hus t ht => ?_)
    refine (hus name hname).mono fun vs hvs => ?_
    obtain ⟨names, hnames⟩ := hvs
    exact ⟨_, .cons ht hcomma hnames hnames.ne_nil⟩
  · refine verdict_expect (fun t ht => ?_) fun _ _ _ _ => .done
    exact .of_kinds [] nofun ⟨_, .one ht⟩
termination_by ts.length
decreasing_by simp only [h₁, h₂, List.length_cons]; omega

theorem parameters_verdict (ts : List Token) :
    Verdict (fun ts => (parameters ts).report) (Completes AreNames) ts := by
  refine .congr (fun y _ => congrArg Attempt.report (parameters.eq_def y)) ?_
  refine Attempt.verdict_ite (fun h => Attempt.verdict_doneWith (by rw [h]; decide)) fun _ => ?_
  refine verdict_expect (.of_kinds [] nofun ⟨_, .nil⟩) fun name ts₁ _ hname => ?_
  exact Attempt.verdict_map ((moreParameters_verdict ts₁).mono fun us _ _ hus => hus name hname)

/-- A sentence after a sentence that has been read, and before the tokens that are still to come. -/
theorem Stated.areSentences {us vs x : List Token} {s : Stmt} (h : Stated (us ++ (vs ++ x)) s (vs ++ x))
    (hvs : Completes AreSentences vs) : Completes AreSentences (us ++ vs) := by
  obtain ⟨ws, hs, ⟨hsplit, hfront⟩ | ⟨semicolon, hsplit, hk⟩⟩ := h
  · obtain rfl := List.append_cancel_right hsplit
    cases vs with
    | nil =>
      refine .of_kinds [] nofun ⟨[s], ?_⟩
      rw [List.append_assoc]
      exact .bare hs (by decide) .nil
    | cons t vs =>
      refine hvs.mono fun zs hzs => ?_
      obtain ⟨stmts, hstmts⟩ := hzs
      rw [List.append_assoc]
      exact ⟨_, .bare hs hfront hstmts⟩
  · rw [List.append_cons] at hsplit
    obtain rfl := List.append_cancel_right hsplit
    refine hvs.mono fun zs hzs => ?_
    obtain ⟨stmts, hstmts⟩ := hzs
    refine ⟨s :: stmts, ?_⟩
    rw [List.append_assoc, List.append_assoc]
    exact .ended hs hk hstmts

theorem IsSentence.areSentences {us : List Token} (h : Completes IsSentence us) : Completes AreSentences us := by
  refine h.mono fun vs hvs => ?_
  obtain ⟨s, hs⟩ := hvs
  refine ⟨[s], ?_⟩
  rw [← List.append_nil (us ++ vs)]
  exact .bare hs (by decide) .nil

section operators

variable {level : Level} {op : Token} (hlt : level.rank < (Level.ofKind op.kind).rank) (left : Expr)
  (us : List Token)

include hlt

theorem report_operators_call (hk : op.kind = .parenL) :
    (operators level left (op :: us)).report =
      ((elements .parenR us).andThen fun args rest _ => operators level (.call left args) rest).report := by
  rw [operators, front_cons, if_pos hlt, expect, if_pos rfl]
  simp only [hk]
  rfl

theorem report_operators_index (hk : op.kind = .bracketL) :
    (operators level left (op :: us)).report =
      ((expression .lowest us).andThen fun index ts _ => expect .bracketR ts fun _ rest _ =>
        operators level (.index left index) rest : Attempt Expr us.length).report := by
  rw [operators, front_cons, if_pos hlt, expect, if_pos rfl]
  simp only [hk]
  rfl

theorem report_operators_binary (hp : op.kind ≠ .parenL) (hb : op.kind ≠ .bracketL) :
    (operators level left (op :: us)).report =
      ((expression (Level.ofKind op.kind) us).andThen fun right rest _ =>
        operators level (.binary left op right) rest : Attempt Expr us.length).report := by
  rw [operators, front_cons, if_pos hlt, expect, if_pos rfl]
  obtain ⟨kind, text, start, stop⟩ := op
  cases kind with
  | parenL => exact absurd rfl hp
  | bracketL => exact absurd rfl hb
  | _ => rfl

end operators

/-- Statements are decided one after the other. -/
theorem verdict_statements {t : Token} {ts : List Token} {more : (ts : List Token) → Reading (List Stmt) ts.length}
    (hstatement : Verdict (fun ts => (statement ts).report) (Completes IsSentence) (t :: ts))
    (hmore : ∀ us, us.length ≤ ts.length →
      Verdict (fun ts => (more ts).report) (Completes AreSentences) us) :
    Verdict (fun ts => ((statement ts).andThen fun s rest _ =>
      (more rest).map (s.toList ++ ·) : Reading (List Stmt) ts.length).report)
      (Completes AreSentences) (t :: ts) := by
  refine Reading.verdict_andThen hstatement (fun us hus => IsSentence.areSentences hus)
    fun o us x hsplit hs => ?_
  refine Reading.verdict_map ((hmore x hs.length_le).mono fun vs y hx hvs => ?_)
  rw [hx] at hsplit hs
  obtain ⟨s, -, hstated⟩ := statement_sound _ hs
  rw [hsplit] at hstated
  exact hstated.areSentences hvs

/-- The tokens are a block. -/
def IsBraced (ts : List Token) : Prop :=
  ∃ stmts, Braced ts stmts

theorem braced_sample : Braced [.sample .braceL, .sample .braceR] [] :=
  @Braced.mk _ _ [] [] rfl .nil rfl

/-- A block is decided as the statements in it are. -/
theorem verdict_braced {α : Type} {C : List Token → Prop} {ts : List Token}
    {next : List Stmt → (ts : List Token) → Attempt α ts.length}
    (hblock : ∀ us, us.length < ts.length → Verdict (fun ts => (block ts).report) (Completes AreSentences) us)
    (hC : ∀ us, Completes IsBraced us → C us)
    (hnext : ∀ stmts us x, ts = us ++ x → Braced us stmts →
      Verdict (fun ts => (next stmts ts).report) (fun vs => C (us ++ vs)) x) :
    Verdict (fun ts => (expect .braceL ts fun _ ts₁ _ =>
      (block ts₁).andTry fun stmts rest _ => next stmts rest).report) C ts := by
  refine verdict_expect (hC [] (.of_kinds [.braceL, .braceR] (by decide) ⟨_, braced_sample⟩))
    fun opening ts₁ hts hopening => ?_
  refine Reading.verdict_andTry (hblock ts₁ (hts ▸ Nat.lt_succ_self _)) (fun us hus => ?_)
    fun stmts us x hsplit hstmts => ?_
  · refine hC _ (hus.extend [.braceR] (by decide) fun vs hvs => ?_)
    obtain ⟨stmts, hstmts⟩ := hvs
    have hbraced := Braced.mk hopening hstmts (Token.kind_sample .braceR)
    exact ⟨_, by simpa using hbraced⟩
  · rw [hsplit] at hstmts
    obtain ⟨vs, closing, rfl, hclosing, hvs⟩ := (block_sound _ hstmts).split
    refine hnext stmts (opening :: (vs ++ [closing])) x (by rw [hts, hsplit]; rfl) ?_
    exact .mk hopening hvs hclosing

section words

variable {word : Token} {ts : List Token}

/-- The test and the blocks of a condition are decided as an expression and blocks as such are. -/
theorem cond_verdict (hword : word.kind = .ifWord)
    (hexpression : ∀ us, us.length < ts.length →
      Verdict (fun ts => (expression .lowest ts).report) (Completes (IsPhrase .equality)) us)
    (hblock : ∀ us, us.length < ts.length → Verdict (fun ts => (block ts).report) (Completes AreSentences) us) :
    Verdict (fun ts => (expect .parenL ts fun _ ts₁ _ => (expression .lowest ts₁).andThen fun test ts₂ _ =>
      expect .parenR ts₂ fun _ ts₃ _ => expect .braceL ts₃ fun _ ts₄ _ =>
        (block ts₄).andTry fun yes ts₅ _ =>
          if front ts₅ = .elseWord then
            expect .elseWord ts₅ fun _ ts₆ _ => expect .braceL ts₆ fun _ ts₇ _ =>
              (block ts₇).andTry fun no rest _ => .done (.cond test yes (some no)) rest
          else .done (.cond test yes none) ts₅ : Attempt Expr ts.length).report)
      (fun us => Completes IsPrimary (word :: us)) ts := by
  refine verdict_expect ?_ fun opening ts₁ h₁ hopening => ?_
  · have hcond := Primary.cond hword (Token.kind_sample .parenL) (phrase_sample .equality)
      (Token.kind_sample .parenR) braced_sample
    exact .of_kinds [.parenL, .ident, .parenR, .braceL, .braceR] (by decide) ⟨_, hcond⟩
  have h₁ : ts₁.length < ts.length := h₁ ▸ Nat.lt_succ_self _
  refine Attempt.verdict_andThen (hexpression ts₁ h₁)
    (fun us hus => hus.extend [.parenR, .braceL, .braceR] (by decide) fun vs hvs => ?_)
    fun test us x h₂ htest => ?_
  · obtain ⟨test, htest⟩ := hvs
    have hcond := Primary.cond hword hopening htest (Token.kind_sample .parenR) braced_sample
    exact ⟨_, by simpa using hcond⟩
  have hx : x.length ≤ ts₁.length - 1 := htest.length_le
  rw [h₂] at htest
  have htest := (expression_sound .lowest _ htest).split
  refine verdict_expect ?_ fun closing ts₃ h₃ hclosing => ?_
  · have hcond := Primary.cond hword hopening htest (Token.kind_sample .parenR) braced_sample
    exact .of_kinds [.parenR, .braceL, .braceR] (by decide) ⟨_, by simpa using hcond⟩
  have h₃ : ts₃.length < x.length := h₃ ▸ Nat.lt_succ_self _
  refine verdict_braced (fun vs hvs => hblock vs (by omega)) (fun vs hvs => hvs.mono fun ws hws => ?_)
    fun yes vs z h₅ hyes => ?_
  · obtain ⟨yes, hyes⟩ := hws
    have hcond := Primary.cond hword hopening htest hclosing hyes
    exact ⟨_, by simpa using hcond⟩
  have hz : z.length ≤ ts₃.length := by rw [h₅, List.length_append]; exact Nat.le_add_left _ _
  refine Attempt.verdict_ite (fun _ => ?_) fun _ => .done
  refine verdict_expect ?_ fun other ts₆ h₆ hother => ?_
  · have hcond := Primary.cond hword hopening htest hclosing hyes
    exact .of_kinds [] nofun ⟨_, by simpa using hcond⟩
  have h₆ : ts₆.length < z.length := h₆ ▸ Nat.lt_succ_self _
  refine verdict_braced (fun vs hvs => hblock vs (by omega)) (fun vs hvs => hvs.mono fun ws hws => ?_)
    fun _ _ _ _ _ => .done
  obtain ⟨no, hno⟩ := hws
  have hcond := Primary.condElse hword hopening htest hclosing hyes hother hno
  exact ⟨_, by simpa using hcond⟩

theorem function_verdict (hword : word.kind = .fnWord)
    (hblock : ∀ us, us.length < ts.length → Verdict (fun ts => (block ts).report) (Completes AreSentences) us) :
    Verdict (fun ts => (expect .parenL ts fun _ ts₁ _ => (parameters ts₁).andThen fun params ts₂ _ =>
      expect .braceL ts₂ fun _ ts₃ _ => (block ts₃).andTry fun body rest _ =>
        .done (.function params body) rest : Attempt Expr ts.length).report)
      (fun us => Completes IsPrimary (word :: us)) ts := by
  refine verdict_expect ?_ fun opening ts₁ h₁ hopening => ?_
  · have hfunction :=
      Primary.function hword (Token.kind_sample .parenL) .nil (Token.kind_sample .parenR) braced_sample
    exact .of_kinds [.parenL, .parenR, .braceL, .braceR] (by decide) ⟨_, hfunction⟩
  have h₁ : ts₁.length < ts.length := h₁ ▸ Nat.lt_succ_self _
  refine Attempt.verdict_andThen (parameters_verdict ts₁)
    (fun us hus => hus.extend [.parenR, .braceL, .braceR] (by decide) fun vs hvs => ?_)
    fun params us x h₂ hparams => ?_
  · obtain ⟨params, hparams⟩ := hvs
    have hfunction := Primary.function hword hopening hparams (Token.kind_sample .parenR) braced_sample
    exact ⟨_, by simpa using hfunction⟩
  have hx : x.length ≤ ts₁.length := hparams.length_le
  rw [h₂] at hparams
  obtain ⟨vs, closing, rfl, hclosing, hnames⟩ := (parameters_sound _ hparams).split
  refine verdict_braced (fun vs hvs => hblock vs (by omega)) (fun vs hvs => hvs.mono fun ws hws => ?_)
    fun _ _ _ _ _ => .done
  obtain ⟨body, hbody⟩ := hws
  have hfunction := Primary.function hword hopening hnames hclosing hbody
  exact ⟨_, by simpa using hfunction⟩

end words

mutual

theorem expression_verdict (level n : Level) (hn : n.rank ≤ level.rank + 1) (hu : n.rank ≤ Level.unary.rank)
    (ts : List Token) : Verdict (fun ts => (expression level ts).report) (Completes (IsPhrase n)) ts := by
  refine .congr (fun y _ => congrArg Attempt.report (expression.eq_def level y)) ?_
  refine Attempt.verdict_andThen (operand_verdict n hu ts) (fun _ hus => hus) fun left us x hts hleft => ?_
  have hlength : x.length ≤ ts.length - 1 := hleft.length_le
  subst hts
  obtain ⟨us', m, hsplit, hphrase, -, hfront⟩ := operand_sound _ hleft
  obtain rfl := List.append_cancel_right hsplit
  exact operators_verdict level n hn hu left us x hphrase hfront
termination_by (ts.length, 1)
decreasing_by all_goals (simp only [Prod.lex_def, true_and]; omega)

theorem operand_verdict (n : Level) (hu : n.rank ≤ Level.unary.rank) (ts : List Token) :
    Verdict (fun ts => (operand ts).report) (Completes (IsPhrase n)) ts := by
  have hnil : Completes (IsPhrase n) [] := .of_kinds [.ident] (by decide) ⟨_, phrase_sample n⟩
  cases hts : ts with
  | nil =>
    refine .stops hnil .noOperand fun y hy => ?_
    obtain rfl := List.head?_eq_none_iff.1 hy
    rw [operand]
    rfl
  | cons t ts =>
    have hprimary {us : List Token} (h : Completes IsPrimary us) : Completes (IsPhrase n) us :=
      h.mono fun _ hvs => hvs.isPhrase n
    cases hk : t.kind with
    | ident | string | trueWord | falseWord =>
      exact .cons (fun us => by simp only [operand, hk]; exact rfl) .done
    | int =>
      by_cases hn : Text.value t.text.toList ≤ maxNumeral
      · exact .cons (fun us => by simp only [operand, hk, if_pos hn]; exact rfl) .done
      · refine .stops hnil (.numberTooLarge hk (Nat.lt_of_not_le hn)) fun y hy => ?_
        obtain ⟨more, rfl⟩ := List.head?_eq_some_iff.1 hy
        simp only [operand, hk, if_neg hn]
        rfl
    | bang | minus =>
      refine .cons (fun us => by simp only [operand, hk]; exact rfl) (Attempt.verdict_past ?_)
      refine Attempt.verdict_andThen (expression_verdict .unary .unary (by decide) (Nat.le_refl _) ts)
        (fun us hus => hus.mono fun vs hvs => ?_) fun _ _ _ _ _ => .done
      obtain ⟨e, he⟩ := hvs
      exact ⟨_, (Phrase.unary (by simp [hk]) he).loosen hu⟩
    | parenL =>
      refine .cons (fun us => by simp only [operand, hk]; exact rfl) (Attempt.verdict_past ?_)
      refine Attempt.verdict_andThen (expression_verdict .lowest .equality (by decide) (by decide) ts)
        (fun us hus => hprimary (hus.extend [.parenR] (by decide) fun vs hvs => ?_)) fun e us x hsplit he => ?_
      · obtain ⟨e, he⟩ := hvs
        have hgroup := Primary.group hk he (Token.kind_sample .parenR)
        exact ⟨_, by simpa using hgroup⟩
      · rw [hsplit] at he
        have hgroup := Primary.group hk (expression_sound .lowest _ he).split (Token.kind_sample .parenR)
        exact verdict_expect (hprimary (.of_kinds [.parenR] (by decide) ⟨_, by simpa using hgroup⟩))
          fun _ _ _ _ => .done
    | ifWord =>
      refine .cons (fun us => by simp only [operand, hk]; exact rfl) (Attempt.verdict_past ?_)
      refine (cond_verdict hk (fun us hlt => ?_) fun us hlt => ?_).mono fun us _ _ hus => hprimary hus
      · exact expression_verdict .lowest .equality (by decide) (by decide) us
      · exact block_verdict us
    | fnWord =>
      refine .cons (fun us => by simp only [operand, hk]; exact rfl) (Attempt.verdict_past ?_)
      exact (function_verdict hk fun us hlt => block_verdict us).mono fun us _ _ hus => hprimary hus
    | bracketL =>
      refine .cons (fun us => by simp only [operand, hk]; exact rfl) (Attempt.verdict_past (Attempt.verdict_map ?_))
      refine (elements_verdict .bracketR (by decide) ts).mono fun us _ _ hus => ?_
      refine hprimary (hus.extend [.bracketR] (by decide) fun vs hvs => ?_)
      obtain ⟨es, hes⟩ := hvs
      have harray := Primary.array hk hes (Token.kind_sample .bracketR)
      exact ⟨_, by simpa using harray⟩
    | braceL =>
      refine .cons (fun us => by simp only [operand, hk]; exact rfl) (Attempt.verdict_past (Attempt.verdict_map ?_))
      refine (entries_verdict ts).mono fun us _ _ hus => ?_
      refine hprimary (hus.extend [.braceR] (by decide) fun vs hvs => ?_)
      obtain ⟨pairs, hpairs⟩ := hvs
      have hhash := Primary.hash hk hpairs (Token.kind_sample .braceR)
      exact ⟨_, by simpa using hhash⟩
    | _ =>
      refine .stops hnil .noOperand fun y hy => ?_
      obtain ⟨more, rfl⟩ := List.head?_eq_some_iff.1 hy
      simp only [operand, hk, front_cons]
      rfl
termination_by (ts.length, 0)
decreasing_by all_goals (simp only [Prod.lex_def, List.length_cons]; omega)

theorem operators_verdict (level n : Level) (hn : n.rank ≤ level.rank + 1) (hu : n.rank ≤ Level.unary.rank)
    (left : Expr) (us ts : List Token) {m : Level} (hleft : Phrase m us left)
    (hfront : (Level.ofKind (front ts)).rank ≤ m.rank) :
    Verdict (fun ts => (operators level left ts).report)
      (fun vs => Completes (IsPhrase n) (us ++ vs)) ts := by
  by_cases hlt : level.rank < (Level.ofKind (front ts)).rank
  · cases hts : ts with
    | nil =>
      rw [hts] at hlt
      exact absurd hlt (Nat.not_lt_zero _)
    | cons op ts₁ =>
      rw [hts, front_cons] at hlt hfront
      have hleft := hleft.loosen hfront
      have hcall {ws : List Token} {e : Expr} (h : Phrase .call ws e) : IsPhrase n ws :=
        ⟨e, h.loosen n.rank_le_call⟩
      -- A call, an index or a second operand: what is read then stands on the left of the operators after it.
      by_cases hp : op.kind = .parenL
      · refine .cons (report_operators_call hlt left · hp) ?_
        rw [hp] at hleft
        refine Attempt.verdict_andThen (elements_verdict .parenR (by decide) ts₁) (fun vs hvs => ?_)
          fun args vs x hsplit hargs => ?_
        · refine hvs.extend [.parenR] (by decide) fun ws hws => ?_
          obtain ⟨es, hes⟩ := hws
          refine hcall (e := .call left es) ?_
          simpa using Phrase.call hleft hp hes (Token.kind_sample .parenR)
        · have hlength : x.length ≤ ts₁.length := hargs.length_le
          rw [hsplit] at hargs
          obtain ⟨ws, closing, rfl, hclosing, hes⟩ := (elements_sound .parenR _ (by decide) hargs).split
          have hphrase := Phrase.call hleft hp hes hclosing
          simpa using operators_verdict level n hn hu (.call left args) _ x hphrase (Level.rank_le_call _)
      by_cases hb : op.kind = .bracketL
      · refine .cons (report_operators_index hlt left · hb) ?_
        rw [hb] at hleft
        refine Attempt.verdict_andThen (expression_verdict .lowest .equality (by decide) (by decide) ts₁)
          (fun vs hvs => ?_) fun index vs x hsplit hindex => ?_
        · refine hvs.extend [.bracketR] (by decide) fun ws hws => ?_
          obtain ⟨e, he⟩ := hws
          refine hcall (e := .index left e) ?_
          simpa using Phrase.index hleft hb he (Token.kind_sample .bracketR)
        · have hlength : x.length ≤ ts₁.length - 1 := hindex.length_le
          rw [hsplit] at hindex
          have he := (expression_sound .lowest _ hindex).split
          refine verdict_expect ?_ fun closing rest hx hclosing => ?_
          · refine .of_kinds [.bracketR] (by decide) (hcall (e := .index left index) ?_)
            simpa using Phrase.index hleft hb he (Token.kind_sample .bracketR)
          · have hrest : rest.length < x.length := hx ▸ Nat.lt_succ_self _
            have hphrase := Phrase.index hleft hb he hclosing
            simpa using operators_verdict level n hn hu (.index left index) _ rest hphrase (Level.rank_le_call _)
      · refine .cons (report_operators_binary hlt left · hp hb) ?_
        have hmem := mem_infixes_ofKind (Nat.zero_lt_of_lt hlt) hp hb
        refine Attempt.verdict_andThen (expression_verdict _ (Level.ofKind op.kind).tighter (rank_tighter_le _)
          (rank_tighter_le_unary hmem) ts₁) (fun vs hvs => ?_) fun right vs x hsplit hright => ?_
        · refine hvs.mono fun ws hws => ?_
          obtain ⟨e, he⟩ := hws
          refine ⟨.binary left op e, Phrase.loosen ?_ (Nat.le_trans hn hlt)⟩
          simpa using Phrase.binary hmem hleft he
        · have hlength : x.length ≤ ts₁.length - 1 := hright.length_le
          obtain ⟨ws, hws, hfront, hphrase⟩ := expression_sound _ ts₁ hright
          obtain rfl := List.append_cancel_right (hsplit.symm.trans hws)
          have hbinary := Phrase.binary hmem hleft (hphrase _ (rank_tighter_le _) (rank_tighter_le_unary hmem))
          simpa using operators_verdict level n hn hu (.binary left op right) _ x hbinary hfront
  · refine .congr (fun y hy => ?_) (.done (a := left))
    rw [operators, if_neg (front_eq_of_head? hy ▸ hlt)]
    rfl
termination_by (ts.length, 0)
decreasing_by all_goals (simp only [hts, Prod.lex_def, List.length_cons]; omega)

theorem elements_verdict (close : Kind) (hclose : close ≠ .eof) (ts : List Token) :
    Verdict (fun ts => (elements close ts).report) (Completes AreElements) ts := by
  refine .congr (fun y _ => congrArg Attempt.report (elements.eq_def close y)) ?_
  refine Attempt.verdict_ite (fun h => Attempt.verdict_doneWith (by rwa [h])) fun _ => ?_
  refine Attempt.verdict_andThen (expression_verdict .lowest .equality (by decide) (by decide) ts)
    (fun us hus => ?_) fun e us x hts he => ?_
  · refine hus.mono fun vs hvs => ?_
    obtain ⟨e, he⟩ := hvs
    exact ⟨_, .one he⟩
  · have hlength : x.length ≤ ts.length - 1 := he.length_le
    subst hts
    have hphrase := (expression_sound .lowest _ he).split
    exact Attempt.verdict_map ((moreElements_verdict close x).mono fun vs _ _ hvs => hvs us e hphrase)
termination_by (ts.length, 2)
decreasing_by all_goals (simp only [Prod.lex_def, true_and]; omega)

theorem moreElements_verdict (close : Kind) (ts : List Token) :
    Verdict (fun ts => (moreElements close ts).report)
      (fun vs => ∀ us e, Phrase .equality us e → Completes AreElements (us ++ vs)) ts := by
  refine .congr (fun y _ => congrArg Attempt.report (moreElements.eq_def close y)) ?_
  have hone (us : List Token) (e : Expr) (he : Phrase .equality us e) :
      Completes AreElements (us ++ []) := by
    refine .of_kinds [] nofun ⟨[e], ?_⟩
    rw [List.append_nil, List.map_nil, List.append_nil]
    exact .one he
  refine Attempt.verdict_ite (fun _ => ?_) fun _ => ?_
  · refine verdict_expect hone fun comma ts₁ h₁ hcomma => ?_
    have hlt : ts₁.length < ts.length := by rw [h₁]; exact Nat.lt_succ_self _
    refine Attempt.verdict_andThen (expression_verdict .lowest .equality (by decide) (by decide) ts₁)
      (fun vs hvs us e he => ?_) fun e' us' x hsplit he' => ?_
    · refine hvs.mono fun ws hws => ?_
      obtain ⟨e', he'⟩ := hws
      rw [List.append_assoc]
      exact ⟨_, .cons he hcomma (.one he') (List.cons_ne_nil _ _)⟩
    · have hlength : x.length ≤ ts₁.length - 1 := he'.length_le
      rw [hsplit] at he'
      have hphrase := (expression_sound .lowest _ he').split
      refine Attempt.verdict_map ((moreElements_verdict close x).mono fun vs _ _ hvs us e he => ?_)
      refine (hvs us' e' hphrase).mono fun ws hws => ?_
      obtain ⟨es, hes⟩ := hws
      obtain ⟨t, us'', rfl, -⟩ := hphrase.starts
      rw [List.append_assoc]
      exact ⟨_, .cons he hcomma hes (hes.ne_nil (List.cons_ne_nil _ _))⟩
  · exact verdict_expect hone fun _ _ _ _ => .done
termination_by (ts.length, 0)
decreasing_by all_goals (simp only [Prod.lex_def]; omega)

theorem entries_verdict (ts : List Token) :
    Verdict (fun ts => (entries ts).report) (Completes ArePairs) ts := by
  refine .congr (fun y _ => congrArg Attempt.report (entries.eq_def y)) ?_
  refine Attempt.verdict_ite (fun h => Attempt.verdict_doneWith (by rw [h]; decide)) fun _ => ?_
  refine Attempt.verdict_andThen (expression_verdict .lowest .equality (by decide) (by decide) ts)
    (fun us hus => ?_) fun key us x hts hkey => ?_
  · refine hus.extend [.colon, .ident] (by decide) fun vs hvs => ?_
    obtain ⟨key, hkey⟩ := hvs
    have hpairs := Pairs.one hkey (Token.kind_sample .colon) (phrase_sample .equality)
    exact ⟨_, by simpa using hpairs⟩
  have hlength : x.length ≤ ts.length - 1 := hkey.length_le
  rw [hts] at hkey
  have hkey := (expression_sound .lowest _ hkey).split
  refine verdict_expect ?_ fun colon ts₂ hx hcolon => ?_
  · have hpairs := Pairs.one hkey (Token.kind_sample .colon) (phrase_sample .equality)
    exact .of_kinds [.colon, .ident] (by decide) ⟨_, by simpa using hpairs⟩
  have hx : ts₂.length < x.length := hx ▸ Nat.lt_succ_self _
  refine Attempt.verdict_andThen (expression_verdict .lowest .equality (by decide) (by decide) ts₂)
    (fun vs hvs => ?_) fun value vs z hsplit hvalue => ?_
  · refine hvs.mono fun ws hws => ?_
    obtain ⟨value, hvalue⟩ := hws
    have hpairs := Pairs.one hkey hcolon hvalue
    exact ⟨_, by simpa using hpairs⟩
  have hlength' : z.length ≤ ts₂.length - 1 := hvalue.length_le
  rw [hsplit] at hvalue
  have hvalue := (expression_sound .lowest _ hvalue).split
  refine Attempt.verdict_ite (fun h => Attempt.verdict_doneWith (by rw [h]; decide)) fun _ => ?_
  refine verdict_expect ?_ fun comma ts₄ hz hcomma => ?_
  · have hpairs := Pairs.one hkey hcolon hvalue
    exact .of_kinds [] nofun ⟨_, by simpa using hpairs⟩
  · have hz : ts₄.length < z.length := hz ▸ Nat.lt_succ_self _
    refine Attempt.verdict_map ((entries_verdict ts₄).mono fun ws _ _ hws => hws.mono fun zs hzs => ?_)
    obtain ⟨pairs, hpairs⟩ := hzs
    have hpairs := Pairs.cons hkey hcolon hvalue hcomma hpairs
    exact ⟨_, by simpa using hpairs⟩
termination_by (ts.length, 2)
decreasing_by all_goals (simp only [Prod.lex_def, true_and]; omega)

theorem block_verdict (ts : List Token) :
    Verdict (fun ts => (block ts).report) (Completes AreSentences) ts := by
  cases hts : ts with
  | nil =>
    refine .stops (.of_kinds [] nofun ⟨[], .nil⟩) (.unexpected .braceR) fun y hy => ?_
    obtain rfl := List.head?_eq_none_iff.1 hy
    rw [block]
    rfl
  | cons t ts =>
    by_cases hk : t.kind = .braceR
    · refine .cons (fun us => ?_) (.done (a := []))
      rw [block, if_pos hk]
      rfl
    · refine .congr (fun y hy => ?_) (verdict_statements (statement_verdict t ts) fun us hus => block_verdict us)
      obtain ⟨more, rfl⟩ := List.head?_eq_some_iff.1 hy
      rw [block, if_neg hk]
termination_by (ts.length, 3)
decreasing_by all_goals (simp only [Prod.lex_def, List.length_cons, true_and]; omega)

theorem statement_verdict (t : Token) (ts : List Token) :
    Verdict (fun ts => (statement ts).report) (Completes IsSentence) (t :: ts) := by
  by_cases hlet : t.kind = .letWord
  · refine .cons (fun us => by simp only [statement, hlet]; exact rfl) ?_
    refine Reading.verdict_past (Attempt.verdict_orSkip ?_)
    refine verdict_expect ?_ fun name ts₁ h₁ hname => ?_
    · have hbind :=
        Sentence.bind hlet (Token.kind_sample .ident) (Token.kind_sample .assign) (phrase_sample .equality)
      exact .of_kinds [.ident, .assign, .ident] (by decide) ⟨_, hbind⟩
    refine verdict_expect ?_ fun assign ts₂ h₂ hassign => ?_
    · have hbind := Sentence.bind hlet hname (Token.kind_sample .assign) (phrase_sample .equality)
      exact .of_kinds [.assign, .ident] (by decide) ⟨_, hbind⟩
    refine Attempt.verdict_andThen (expression_verdict .lowest .equality (by decide) (by decide) ts₂)
      (fun us hus => ?_) fun value us x _ _ => verdict_ended _
    refine hus.mono fun vs hvs => ?_
    obtain ⟨value, hvalue⟩ := hvs
    exact ⟨_, .bind hlet hname hassign hvalue⟩
  by_cases hreturn : t.kind = .returnWord
  · refine .cons (fun us => by simp only [statement, hreturn]; exact rfl) ?_
    refine Reading.verdict_past (Attempt.verdict_orSkip ?_)
    refine Attempt.verdict_andThen (expression_verdict .lowest .equality (by decide) (by decide) ts)
      (fun us hus => ?_) fun value us x _ _ => verdict_ended _
    refine hus.mono fun vs hvs => ?_
    obtain ⟨value, hvalue⟩ := hvs
    exact ⟨_, .give hreturn hvalue⟩
  · refine .congr (G := fun ts => ((expression .lowest ts).andThen fun value rest _ =>
      ended (.expr value) rest : Attempt Stmt (ts.length - 1)).orResume.report) (fun y hy => ?_) ?_
    · obtain ⟨more, rfl⟩ := List.head?_eq_some_iff.1 hy
      rw [statement]
      split
      · next hk => exact absurd hk hlet
      · next hk => exact absurd hk hreturn
      · rfl
    refine Attempt.verdict_orResume (Attempt.verdict_andThen
      (expression_verdict .lowest .equality (by decide) (by decide) (t :: ts)) (fun us hus => ?_)
      fun value us x _ _ => verdict_ended _)
    refine hus.mono fun vs hvs => ?_
    obtain ⟨value, hvalue⟩ := hvs
    exact ⟨_, .expr hvalue⟩
termination_by (ts.length + 1, 2)
decreasing_by
  · simp only [h₁, h₂, List.length_cons, Prod.lex_def]
    omega
  all_goals
    simp only [List.length_cons, Prod.lex_def, true_and]
    omega

end

/-- Reading a text stops at its first token that cannot come after those before it. -/
theorem program_verdict (ts : List Token) :
    Verdict (fun ts => (program ts).report) (Completes AreSentences) ts := by
  cases ts with
  | nil =>
    refine .congr (fun y hy => ?_) (.done (a := []))
    obtain rfl := List.head?_eq_none_iff.1 hy
    rw [program]
    rfl
  | cons t ts =>
    refine .congr (fun y hy => ?_) (verdict_statements (statement_verdict t ts) fun us hus => program_verdict us)
    obtain ⟨more, rfl⟩ := List.head?_eq_some_iff.1 hy
    rw [program]
termination_by ts.length
decreasing_by simp only [List.length_cons]; omega

end Parse

end Monkey
