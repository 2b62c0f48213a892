import Mathlib
import Monkey.Proofs.Layout
import Monkey.Proofs.Recognition
import Monkey.Proofs.Rendering
import Monkey.Script
import Monkey.Value.Display

namespace Monkey
open Parse

/-- The written form of statements is scanned into these tokens, and they spell the statements. -/
structure StmtsSpelledBy (stmts : List Stmt) (us : List Token) : Prop where
  sentences : Sentences us (bareStmts stmts)
  reads : ∀ cs vs, Stops cs → Reads cs vs → Reads ((renderStmts stmts).toList ++ cs) (us ++ vs)

/-- The same for names between commas. -/
structure NamesSpelledBy (params : List Ident) (us : List Token) : Prop where
  names : Names us (params.map .bare)
  reads : ∀ cs vs, Stops cs → Reads cs vs →
    Reads ((", ".intercalate (params.map (·.name))).toList ++ cs) (us ++ vs)

namespace StmtsSpelledBy

theorem nil : StmtsSpelledBy [] [] where
  sentences := .nil
  reads cs vs hcs hvs := by simpa using hvs

theorem last {value : Expr} {us : List Token} (h : value.SpelledBy us) :
    StmtsSpelledBy [.expr value] (us ++ []) where
  sentences := .bare (.expr (h.phrase.loosen (by decide))) (by decide) .nil
  reads cs vs hcs hvs := by simpa using h.reads cs vs hcs hvs

variable {stmts : List Stmt} {value : Expr} {us vs : List Token}

theorem bind {name : Ident} (hname : name.isReadable) (h : value.SpelledBy us)
    (hstmts : StmtsSpelledBy stmts vs) :
    StmtsSpelledBy (.bind name value :: stmts)
      ((.synthetic .letWord "let" :: .synthetic .ident name.name :: Kind.assign.token :: us) ++
        Kind.semicolon.token :: vs) where
  sentences := .ended (.bind rfl rfl rfl (h.phrase.loosen (by decide))) rfl hstmts.sentences
  reads cs ws hcs hws := by
    have hend := (hstmts.reads cs ws hcs hws).mark ';' (by decide) rfl
    have hvalue := h.reads _ _ (stops_cons (by decide) _) hend
    have hassign := (hvalue.spaced '=' rfl).blank (c := ' ') (by decide)
    have hbound := (hassign.ident hname (stops_cons (by decide) _)).blank (c := ' ') (by decide)
    have hlet := hbound.keyword (w := "let") (k := .letWord) (by decide) (stops_cons (by decide) _)
    simpa using hlet

theorem give (h : value.SpelledBy us) (hstmts : StmtsSpelledBy stmts vs) :
    StmtsSpelledBy (.give value :: stmts)
      ((.synthetic .returnWord "return" :: us) ++ Kind.semicolon.token :: vs) where
  sentences := .ended (.give rfl (h.phrase.loosen (by decide))) rfl hstmts.sentences
  reads cs ws hcs hws := by
    have hend := (hstmts.reads cs ws hcs hws).mark ';' (by decide) rfl
    have hvalue := (h.reads _ _ (stops_cons (by decide) _) hend).blank (c := ' ') (by decide)
    have hreturn :=
      hvalue.keyword (w := "return") (k := .returnWord) (by decide) (stops_cons (by decide) _)
    simpa using hreturn

end StmtsSpelledBy

theorem stmtsSpelled : (stmts : List Stmt) → stmtsReadable stmts → ∃ us, StmtsSpelledBy stmts us
  | [], _ => ⟨[], .nil⟩
  | .bind name value :: stmts, h => by
    rw [stmtsReadable, Bool.and_eq_true, Bool.and_eq_true] at h
    obtain ⟨us, hvalue⟩ := value.spelled h.1.2
    obtain ⟨vs, hstmts⟩ := stmtsSpelled stmts h.2
    exact ⟨_, .bind h.1.1 hvalue hstmts⟩
  | .give value :: stmts, h => by
    rw [stmtsReadable, Bool.and_eq_true] at h
    obtain ⟨us, hvalue⟩ := value.spelled h.1
    obtain ⟨vs, hstmts⟩ := stmtsSpelled stmts h.2
    exact ⟨_, .give hvalue hstmts⟩
  | [.expr value], h => by
    obtain ⟨us, hvalue⟩ := value.spelled h
    exact ⟨_, .last hvalue⟩

theorem namesSpelled :
    (params : List Ident) → params.all (·.isReadable) → ∃ us, NamesSpelledBy params us
  | [], _ => ⟨[], .nil, fun cs vs hcs hvs => by simpa using hvs⟩
  | [p], h => by
    rw [List.all_cons, Bool.and_eq_true] at h
    exact ⟨[.synthetic .ident p.name], .one rfl, fun cs vs hcs hvs => by simpa using hvs.ident h.1 hcs⟩
  | p :: p' :: ps, h => by
    rw [List.all_cons, Bool.and_eq_true] at h
    obtain ⟨us, hps⟩ := namesSpelled (p' :: ps) h.2
    refine ⟨.synthetic .ident p.name :: Kind.comma.token :: us, ?_, fun cs vs hcs hvs => ?_⟩
    · exact .cons rfl rfl hps.names (by simp)
    · have hrest := (hps.reads cs vs hcs hvs).comma
      have hfirst := hrest.ident h.1 (stops_cons (by decide) _)
      simpa [String.intercalate_cons_cons] using hfirst

theorem stops_nil : Stops [] := by
  intro c hc
  exact nomatch hc

/-- Where a text is scanned into tokens that spell a program, that program is read from it. -/
theorem parse_of_reads {source : String} {us : List Token} {stmts : List Stmt}
    (h : Reads source.toList us) (hs : Sentences us stmts) :
    (parse source).diagnostics = [] ∧ bareStmts (parse source).program = stmts := by
  obtain ⟨ts, hitems, hbare⟩ := h .first
  have hparse : parse source = ⟨(program ts).value, (program ts).log.map (·.diagnostic)⟩ := by
    rw [← ofItems_map_ok, ← hitems]
    rfl
  -- the scanned tokens have places and the spelling ones have none, which makes no difference
  obtain ⟨hvalue, -, hlog, -⟩ := alike_program ts
  rw [hbare] at hvalue hlog
  have hyields := hs.program_yields
  rw [hparse]
  refine ⟨?_, ?_⟩
  · rw [← hlog, hyields.2.2, List.map_nil]
  · rw [← hvalue, hyields.1]

theorem parse_render (stmts : List Stmt) (h : stmtsReadable stmts) :
    (parse (renderStmts stmts)).diagnostics = [] ∧
      bareStmts (parse (renderStmts stmts)).program = bareStmts stmts := by
  obtain ⟨us, hstmts⟩ := stmtsSpelled stmts h
  have hreads := hstmts.reads [] [] stops_nil reads_nil
  rw [List.append_nil, List.append_nil] at hreads
  exact parse_of_reads hreads hstmts.sentences

/-- The shown form of a function is read as a single expression, which is that function. -/
theorem parse_display (order : Arrangement) (mark : Nat) (c : Closure) (hparams : c.params.all (·.isReadable))
    (hbody : stmtsReadable c.body) :
    (parse ((Value.function mark c).display order)).diagnostics = [] ∧
      bareStmts (parse ((Value.function mark c).display order)).program =
        [.expr (.function (c.params.map .bare) (bareStmts c.body))] := by
  obtain ⟨us, hnames⟩ := namesSpelled c.params hparams
  obtain ⟨vs, hstmts⟩ := stmtsSpelled c.body hbody
  -- the text is read from its end, as what stops a word stands after it
  have hclose := (reads_nil.mark '\x7d' (by decide) rfl).blank (c := '\n') (by decide)
  have hinner := (hstmts.reads _ _ (stops_cons (by decide) _) hclose).blank (c := '\n') (by decide)
  have hopening := (hinner.mark '\x7b' (by decide) rfl).blank (c := ' ') (by decide)
  have hparenR := hopening.mark ')' (by decide) rfl
  have hparenL := (hnames.reads _ _ (stops_cons (by decide) _) hparenR).mark '(' (by decide) rfl
  have hfn := hparenL.keyword (w := "fn") (k := .fnWord) (by decide) (stops_cons (by decide) _)
  have hbraced : Braced (Kind.braceL.token :: vs ++ [Kind.braceR.token]) (bareStmts c.body) :=
    .mk rfl hstmts.sentences rfl
  have hphrase : Phrase .call
      (.synthetic .fnWord "fn" :: Kind.parenL.token :: us ++
        Kind.parenR.token :: (Kind.braceL.token :: vs ++ [Kind.braceR.token]))
      (.function (c.params.map .bare) (bareStmts c.body)) :=
    .primary (.function rfl rfl hnames.names rfl hbraced)
  have hsentences := Sentences.bare (.expr (hphrase.loosen (by decide))) (by decide) .nil
  refine parse_of_reads ?_ hsentences
  simpa [Value.display] using hfn

/-- Only a function literal is one apart from its places. -/
theorem Expr.eq_of_bare_function {e : Expr} {params : List Ident} {body : List Stmt}
    (h : e.bare = .function params body) :
    ∃ params' body', e = .function params' body' ∧ params'.map .bare = params ∧ bareStmts body' = body := by
  cases e with
  | function params' body' =>
    rw [bare, function.injEq] at h
    exact ⟨params', body', rfl, h⟩
  | cond test yes no =>
    cases no <;> (rw [bare] at h; cases h)
  | _ =>
    rw [bare] at h
    cases h

theorem eq_of_bareStmts_function {stmts : List Stmt} {params : List Ident} {body : List Stmt}
    (h : bareStmts stmts = [.expr (.function params body)]) :
    ∃ params' body', stmts = [.expr (.function params' body')] ∧ params'.map .bare = params ∧
      bareStmts body' = body := by
  rw [bareStmts_eq_map, List.map_eq_singleton_iff] at h
  obtain ⟨s, rfl, hs⟩ := h
  cases s with
  | expr e =>
    rw [Stmt.bare, Stmt.expr.injEq] at hs
    obtain ⟨params', body', rfl, hbare⟩ := Expr.eq_of_bare_function hs
    exact ⟨params', body', rfl, hbare⟩
  | _ =>
    rw [Stmt.bare] at hs
    exact nomatch hs

theorem runSource_display (order : Arrangement) (mark depth : Nat) (c : Closure) (m : Machine)
    (hparams : c.params.all (·.isReadable)) (hbody : stmtsReadable c.body) :
    ∃ mark' c' m',
      runSource (depth + 1) ((Value.function mark c).display order) m = some (.ok (.function mark' c'), m') ∧
        c'.params.map Ident.bare = c.params.map Ident.bare ∧ bareStmts c'.body = bareStmts c.body := by
  obtain ⟨hdiagnostics, hprogram⟩ := parse_display order mark c hparams hbody
  obtain ⟨params, body, hstmts, hps, hss⟩ := eq_of_bareStmts_function hprogram
  have hrun : runSource (depth + 1) ((Value.function mark c).display order) m =
      some (.ok (.function m.marks ⟨params, body, m.store.newGlobal.1⟩),
        { m with store := m.store.newGlobal.2, marks := m.marks + 1 }) := by
    rw [runSource, hdiagnostics, hstmts]
    rfl
  exact ⟨_, _, _, hrun, hps, hss⟩

/-- What is written of a readable program is read as that program, so two of them that are written alike are
one apart from their places. A function is got back by running what shows it. -/
theorem parse_undoes_render :
    (∀ stmts, stmtsReadable stmts →
      (parse (renderStmts stmts)).diagnostics = [] ∧
        bareStmts (parse (renderStmts stmts)).program = bareStmts stmts) ∧
    (∀ stmts stmts', stmtsReadable stmts → stmtsReadable stmts' →
      renderStmts stmts = renderStmts stmts' → bareStmts stmts = bareStmts stmts') ∧
    ∀ order mark depth c m, c.params.all (·.isReadable) → stmtsReadable c.body →
      ∃ mark' c' m',
        runSource (depth + 1) ((Value.function mark c).display order) m = some (.ok (.function mark' c'), m') ∧
          c'.params.map Ident.bare = c.params.map Ident.bare ∧ bareStmts c'.body = bareStmts c.body := by
  refine ⟨parse_render, fun stmts stmts' h h' heq => ?_, runSource_display⟩
  have hleft := (parse_render stmts h).2
  have hright := (parse_render stmts' h').2
  rw [← hleft, heq, hright]

/-- An index of a hash, called with nothing and then with a negation, in two places. -/
theorem parse_undoes_render_of_nested :
    let stmts (p : Position) : List Stmt :=
      [.bind ⟨"a", p, p⟩ (.binary (.int 1) ⟨.plus, "+", p, p⟩ (.bool true)),
        .expr (.call (.call (.index (.hash [(.int 0, .ident ⟨"a", p, p⟩)]) (.int 0)) [])
          [.unary ⟨.minus, "-", p, p⟩ (.ident ⟨"a", p, p⟩)])]
    let text := "let a = (1 + true);(\x7b0: a\x7d[0])()((-a))"
    let c : Closure := ⟨[⟨"a", .first, .first⟩], stmts .first, ⟨0⟩⟩
    renderStmts (stmts .first) = text ∧
      ((parse text).diagnostics = [] ∧ bareStmts (parse text).program = bareStmts (stmts .first)) ∧
      bareStmts (stmts .first) = bareStmts (stmts ⟨5, 7⟩) ∧
      ∃ mark' c' m',
        runSource 1 ((Value.function 0 c).display .sorted) (.new none) = some (.ok (.function mark' c'), m') ∧
          c'.params.map Ident.bare = c.params.map Ident.bare ∧ bareStmts c'.body = bareStmts c.body := by
  intro stmts text c
  have htext : renderStmts (stmts .first) = text := by cbv
  have hfirst : stmtsReadable (stmts .first) := by decide
  have hother : stmtsReadable (stmts ⟨5, 7⟩) := by decide
  refine ⟨htext, ?_, ?_, ?_⟩
  · rw [← htext]
    exact parse_undoes_render.1 _ hfirst
  · exact parse_undoes_render.2.1 _ _ hfirst hother rfl
  · exact parse_undoes_render.2.2 .sorted 0 0 c (.new none) (by decide) hfirst

end Monkey
