import Mathlib
import Monkey.Proofs.Layout
import Monkey.Proofs.Recognition
import Monkey.Proofs.Simulation
import Monkey.Script

namespace Monkey
open Parse

/-- What is to be seen of a run from outside: the type and text of its result, and its output. -/
def shown (r : Option (Value × Machine)) : Option (ValueType × String × ByteArray) :=
  r.map fun (v, m) => (v.type, v.display m.order, m.sink.written)

/-- The same for a source, of which nothing is run if it is not well formed. -/
def shownOf (r : Option (Except (List Diagnostic) Value × Machine)) :
    Option (Except (List Diagnostic) (ValueType × String) × ByteArray) :=
  r.map fun (out, m) => (out.map fun v => (v.type, v.display m.order), m.sink.written)

/-- Two runs that match end with one type or do not end, and large hashes are shown in both or in none. If they are
shown in none, or all hashes in one order, nothing from outside tells the runs apart. -/
theorem Traced.Matches.shown_eq {names : String → Prop} {M : Matching names} {x y : Traced Value}
    (h : x.Matches M Value.Matches y) (hx : x.Tells) (hy : y.Tells) {m m' : Machine} (hm : m.Matches M m')
    (hwritten : m'.sink.written = m.sink.written) :
    (x.action m).map (·.1.type) = (y.action m').map (·.1.type) ∧
      (ShowsNoLargeHash (x m) ↔ ShowsNoLargeHash (y m')) ∧
      (m.order.Alike m'.order ∨ ShowsNoLargeHash (x m) → shown (x.action m) = shown (y.action m')) := by
  have hends := h M m m' (.refl M) hm
  have htells := hx m
  have htells' := hy m'
  unfold action at htells htells' ⊢
  generalize x m = r, y m' = r' at hends htells htells' ⊢
  cases hends with
  | neither hN hshown =>
    refine ⟨rfl, ?_, fun _ => rfl⟩
    exact and_congr hshown.small_iff ⟨fun _ => nofun, fun _ => nofun⟩
  | @both N v v' n n' seen seen' hN hv hn hshown =>
    have hshows := htells v n rfl
    have hshows' := htells' v' n' rfl
    refine ⟨congrArg some hv.type_eq, ?_, fun horder => ?_⟩
    · simp only [ShowsNoLargeHash, Option.some_inj, Prod.mk.injEq, and_imp, forall_eq', forall_apply_eq_imp_iff,
        hshown.small_iff, hv.showsLargeHash_eq]
    · have hdisplay := hv.display_eq_of_small (horder.imp_right fun hsmall => hsmall.2 v n rfl)
      obtain ⟨output, houtput, houtput'⟩ :=
        hshown.written_eq hshows hshows' hm.left_eq (horder.imp_right fun hsmall => hsmall.1)
      simp only [shown, Option.map_some, hv.type_eq, hshows.order_eq, hshows'.order_eq, hdisplay, houtput, houtput',
        hwritten]

/-- Runs a program in a scope of its own. -/
def Eval.alone {M : Type → Type} [Monad M] [Host M] (ev : Scope → Expr → M Value) (stmts : List Stmt) : M Value := do
  let scope ← Host.step Action.newGlobal
  program ev scope stmts

def runProgram (depth : Nat) (stmts : List Stmt) : Action Value :=
  Eval.alone (eval depth) stmts

theorem Traced.action_alone (depth : Nat) (stmts : List Stmt) :
    (Eval.alone (Traced.eval depth) stmts).action = runProgram depth stmts := by
  unfold Eval.alone
  rw [action_bind, action_step]
  simp only [action_program (action_eval depth)]
  rfl

theorem Traced.tells_alone (depth : Nat) (stmts : List Stmt) : Tells (Eval.alone (Traced.eval depth) stmts) :=
  (tells_step Action.silent_newGlobal).bind fun scope => tells_program (tells_eval depth) scope stmts

/-- A program gives what its statements give in the scope made for it, and nothing else is shown. -/
theorem Traced.alone_of_block {depth : Nat} {stmts : List Stmt} {m m₁ n : Machine} {scope : Scope} {v : Value}
    {seen : List Event} (hglobal : Action.newGlobal m = some (scope, m₁))
    (hblock : Eval.block (eval depth) scope stmts .null m₁ = (seen, some (v, n))) :
    ∃ seen', Eval.alone (eval depth) stmts m = (seen', some (v.unwrapped, n)) ∧ shownIn seen' = shownIn seen := by
  have hstep : (Host.step Action.newGlobal : Traced Scope) m = ([.reached m₁], some (scope, m₁)) := by
    change step Action.newGlobal m = _
    rw [step, hglobal]
  have hleave : (Eval.block (eval depth) scope stmts .null >>= fun v => pure v.unwrapped : Traced Value) m₁ =
      (seen ++ [], some (v.unwrapped, n)) := bind_of_some hblock
  have hprogram : Eval.program (eval depth) scope stmts m₁ =
      (seen ++ [] ++ [.left v.unwrapped], some (v.unwrapped, n)) := bind_of_some hleave
  refine ⟨_, (bind_of_some hstep).trans (by rw [hprogram]), ?_⟩
  rw [shownIn_append, List.append_nil, shownIn_append]
  exact List.append_nil _

theorem shownOf_map_ok (r : Option (Value × Machine)) :
    shownOf (r.map fun (v, m) => (.ok v, m)) =
      (shown r).map fun (type, text, out) => (.ok (type, text), out) := by
  cases r <;> rfl

theorem runSource_eq (depth : Nat) (source : String) (m : Machine) :
    runSource depth source m =
      if (parse source).diagnostics = [] then
        (runProgram depth (parse source).program m).map fun (v, m') => (.ok v, m')
      else some (.error (parse source).diagnostics, m) := by
  unfold runSource
  dsimp only
  cases h : (parse source).diagnostics with
  | nil =>
    have hassoc : (do
        let scope ← Action.newGlobal
        return .ok (← Eval.program (eval depth) scope (parse source).program)) =
          (runProgram depth (parse source).program >>= fun v => pure (.ok v) :
            Action (Except (List Diagnostic) Value)) := (bind_assoc ..).symm
    rw [if_pos rfl, Option.map_eq_bind]
    exact congrFun hassoc m
  | cons d ds => rfl

theorem matches_alone (depth : Nat) (stmts : List Stmt) :
    (Eval.alone (Traced.eval depth) stmts).Matches (.empty fun _ => True) Value.Matches
      (Eval.alone (Traced.eval depth) (bareStmts stmts)) :=
  (Traced.matches_step Action.matches_newGlobal).bind fun _ _ _ _ hscope =>
    Eval.matches_program (simulates_eval _ depth) hscope (stmtsMatch_bare stmts)

/-- A program runs like the one without its places. -/
theorem shown_runProgram_bare (depth : Nat) (stmts : List Stmt) (limit : Option Nat) (order order' : Arrangement) :
    (runProgram depth stmts (.new limit order)).map (·.1.type) =
        (runProgram depth (bareStmts stmts) (.new limit order')).map (·.1.type) ∧
      (ShowsNoLargeHash (Eval.alone (Traced.eval depth) stmts (.new limit order)) ↔
        ShowsNoLargeHash (Eval.alone (Traced.eval depth) (bareStmts stmts) (.new limit order'))) ∧
      (order.Alike order' ∨ ShowsNoLargeHash (Eval.alone (Traced.eval depth) stmts (.new limit order)) →
        shown (runProgram depth stmts (.new limit order)) =
          shown (runProgram depth (bareStmts stmts) (.new limit order'))) := by
  have hmatch : (Machine.new limit order).Matches (.empty fun _ => True) (.new limit order') :=
    Machine.matches_empty _ rfl
  have hshown := (matches_alone depth stmts).shown_eq (Traced.tells_alone depth stmts) (Traced.tells_alone depth _)
    hmatch rfl
  rwa [Traced.action_alone, Traced.action_alone] at hshown

/-- Programs that are the same up to places run alike. -/
theorem shown_runProgram (depth : Nat) {stmts stmts' : List Stmt} (h : bareStmts stmts = bareStmts stmts')
    (limit : Option Nat) (order order' : Arrangement) :
    (runProgram depth stmts (.new limit order)).map (·.1.type) =
        (runProgram depth stmts' (.new limit order')).map (·.1.type) ∧
      (order.Alike order' ∨ ShowsNoLargeHash (Eval.alone (Traced.eval depth) stmts (.new limit order)) →
        shown (runProgram depth stmts (.new limit order)) = shown (runProgram depth stmts' (.new limit order'))) := by
  obtain ⟨htype, hsmall, hshown⟩ := shown_runProgram_bare depth stmts limit order order'
  obtain ⟨htype', hsmall', hshown'⟩ := shown_runProgram_bare depth stmts' limit order' order'
  rw [← h] at htype' hsmall' hshown'
  refine ⟨htype.trans htype'.symm, fun horder => (hshown horder).trans (hshown' ?_).symm⟩
  exact horder.imp Arrangement.Alike.right fun hno => hsmall'.2 (hsmall.1 hno)

/-- Of a source that is scanned without errors, only the kinds and texts of its tokens matter. -/
theorem parse_of_bare {source : String} {ts : List Token} (h : itemsOf source = ts.map .ok) :
    (parse source).diagnostics = (program (ts.map .bare)).log.map (·.diagnostic) ∧
      bareStmts (parse source).program = (program (ts.map .bare)).value := by
  obtain ⟨hvalue, -, hlog, -⟩ := alike_program ts
  rw [parse, h, ofItems_map_ok, hvalue, hlog]
  exact ⟨rfl, rfl⟩

theorem bare_eq_of_spelled {ts us : List Token}
    (h : ts.map (fun t => (t.kind, t.text)) = us.map fun t => (t.kind, t.text)) :
    ts.map Token.bare = us.map .bare := by
  have hbare := congrArg (List.map fun p : Kind × String => Token.synthetic p.1 p.2) h
  rwa [List.map_map, List.map_map] at hbare

/-- Sources whose tokens have the same kinds and texts are read alike and mean the same. What the parser reports
and the programs it builds agree up to places, and so do the written forms; both runs end or neither does. They have
the same output and results of one type and text, if all hashes are shown in one order or no hash with two or more pairs
is shown. -/
theorem layout_keeps_meaning (source source' : String) (ts ts' : List Token)
    (hs : itemsOf source = ts.map .ok) (hs' : itemsOf source' = ts'.map .ok)
    (h : ts.map (fun t => (t.kind, t.text)) = ts'.map fun t => (t.kind, t.text)) :
    (parse source).diagnostics = (parse source').diagnostics ∧
      bareStmts (parse source).program = bareStmts (parse source').program ∧
      renderStmts (parse source).program = renderStmts (parse source').program ∧
      ∀ depth limit order order',
        let run := runSource depth source (.new limit order)
        let run' := runSource depth source' (.new limit order')
        let traced := Eval.alone (Traced.eval depth) (parse source).program (.new limit order)
        traced.2 = Eval.alone (eval depth) (parse source).program (.new limit order) ∧ (run = none ↔ run' = none) ∧
          (order.Alike order' ∨ ShowsNoLargeHash traced → shownOf run = shownOf run') := by
  have hbare := bare_eq_of_spelled h
  obtain ⟨hdiagnostics, hprogram⟩ := parse_of_bare hs
  obtain ⟨hdiagnostics', hprogram'⟩ := parse_of_bare hs'
  rw [← hbare] at hdiagnostics' hprogram'
  have hsame : bareStmts (parse source).program = bareStmts (parse source').program :=
    hprogram.trans hprogram'.symm
  have herrors : (parse source).diagnostics = (parse source').diagnostics :=
    hdiagnostics.trans hdiagnostics'.symm
  refine ⟨herrors, hsame, ?_, fun depth limit order order' => ?_⟩
  · rw [(stmtsMatch_bare (parse source).program).render_eq, hsame]
    exact (stmtsMatch_bare (parse source').program).render_eq.symm
  · obtain ⟨htype, hshown⟩ := shown_runProgram depth hsame limit order order'
    have hends := congrArg (· = none) htype
    simp only [Option.map_eq_none_iff, eq_iff_iff] at hends
    refine ⟨congrFun (Traced.action_alone depth _) _, ?_⟩
    rw [runSource_eq, runSource_eq, ← herrors]
    by_cases hok : (parse source).diagnostics = []
    · rw [if_pos hok, if_pos hok, Option.map_eq_none_iff, Option.map_eq_none_iff, shownOf_map_ok, shownOf_map_ok]
      exact ⟨hends, fun horder => by rw [hshown horder]⟩
    · rw [if_neg hok, if_neg hok]
      exact ⟨⟨nofun, nofun⟩, fun _ => rfl⟩

/-- A comment and a new line change all places. Here an operator, a name and a parameter come after them. -/
theorem layout_keeps_meaning_of_comment :
    let source := "fn(x){-x}(puts(1))"
    let source' := "fn(x) \x7b\n  -x // minus\n\x7d(puts(1))"
    let ts := tokensOf (itemsOf source)
    let ts' := tokensOf (itemsOf source')
    itemsOf source = ts.map .ok ∧ itemsOf source' = ts'.map .ok ∧ ts ≠ ts' ∧
      ts.map (fun t => (t.kind, t.text)) = ts'.map (fun t => (t.kind, t.text)) ∧
      renderStmts (parse source).program = renderStmts (parse source').program ∧
      shownOf (runSource 5 source (.new none)) = shownOf (runSource 5 source' (.new none)) ∧
      ∃ m, runSource 5 source (.new none) = some (.ok (.error (.notNegatable .null)), m) ∧
        m.sink.written = "1\n".toUTF8 := by
  intro source source' ts ts'
  have hs : itemsOf source = ts.map .ok := by
    dsimp only [ts, source]
    cbv
  have hs' : itemsOf source' = ts'.map .ok := by
    dsimp only [ts', source']
    cbv
  have hne : ts ≠ ts' := by
    dsimp only [ts, ts', source, source']
    cbv
    decide
  have h : ts.map (fun t => (t.kind, t.text)) = ts'.map fun t => (t.kind, t.text) := by
    dsimp only [ts, ts', source, source']
    cbv
  have hrun : ∃ m, runSource 5 "fn(x){-x}(puts(1))" (.new none) =
        some (.ok (.error (.notNegatable .null)), m) ∧
      m.sink.written = "1\n".toUTF8 := ⟨_, by cbv, by cbv⟩
  obtain ⟨-, -, hrender, hshown⟩ := layout_keeps_meaning source source' ts ts' hs hs' h
  exact ⟨hs, hs', hne, h, hrender, (hshown 5 none .sorted .sorted).2.2 (Or.inl Arrangement.alike_sorted), hrun⟩

end Monkey
