import Mathlib
import Monkey.Proofs.Confinement
import Monkey.Proofs.Lines
import Monkey.Proofs.Truncation

namespace Monkey

section bytes

theorem toList_loop (bytes : ByteArray) (n : Nat) (front : List UInt8) :
    ByteArray.toList.loop bytes n front = front.reverse ++ bytes.data.toList.drop n := by
  fun_induction ByteArray.toList.loop bytes n front with
  | case1 n front hlt ih =>
    have hlength : n < bytes.data.toList.length := by simpa using hlt
    have hget : bytes.get! n = bytes.data.toList[n] := getElem!_pos bytes.data n hlt
    rw [ih, hget, List.drop_eq_getElem_cons hlength, List.reverse_cons, List.append_assoc,
      List.singleton_append]
  | case2 n front hge =>
    rw [List.drop_eq_nil_of_le (by simpa using hge), List.append_nil]

theorem toList_toUTF8 (s : String) : s.toUTF8.toList = s.toList.utf8Encode.data.toList := by
  rw [String.toUTF8_eq_toByteArray, String.utf8Encode_toList, ByteArray.toList, toList_loop]
  rfl

theorem toUTF8_of_toList (s : String) : ⟨s.toUTF8.toList.toArray⟩ = s.toUTF8 := by
  rw [toList_toUTF8, String.utf8Encode_toList, Array.toArray_toList]
  rfl

theorem fromUTF8?_toUTF8 (s : String) : String.fromUTF8? s.toUTF8 = some s := by
  unfold String.fromUTF8?
  rw [String.toUTF8_eq_toByteArray, dif_pos s.isValidUTF8]
  rfl

theorem utf8Encode_append (cs ds : List Char) :
    (cs ++ ds).utf8Encode.data.toList = cs.utf8Encode.data.toList ++ ds.utf8Encode.data.toList := by
  rw [List.utf8Encode_append, ByteArray.data_append, Array.toList_append]

theorem utf8Encode_singleton (c : Char) : [c].utf8Encode.data.toList = String.utf8EncodeChar c := by
  rw [List.utf8Encode_singleton, List.data_toByteArray]

/-- In UTF-8 the byte of a line feed is a part of no other character. -/
theorem eq_of_mem_utf8EncodeChar {c : Char} (h : 10 ∈ String.utf8EncodeChar c) : c = '\n' := by
  have hne {n : Nat} (h : n % 256 ≠ 10) : (10 : UInt8) ≠ UInt8.ofNat n := by
    intro heq
    have hvalue := congrArg UInt8.toNat heq
    rw [UInt8.toNat_ofNat'] at hvalue
    exact h hvalue.symm
  unfold String.utf8EncodeChar at h
  dsimp only at h
  split at h
  · next hone =>
    have hten : c.val.toNat = 10 := by
      have hvalue := congrArg UInt8.toNat (List.mem_singleton.1 h)
      rw [UInt8.toNat_ofNat'] at hvalue
      have : (10 : UInt8).toNat = 10 := rfl
      omega
    exact Char.toNat_inj.1 hten
  · refine absurd h ?_
    split
    · simp only [List.mem_cons, List.not_mem_nil, or_false, not_or]
      exact ⟨hne (by omega), hne (by omega)⟩
    · split
      · simp only [List.mem_cons, List.not_mem_nil, or_false, not_or]
        exact ⟨hne (by omega), hne (by omega), hne (by omega)⟩
      · simp only [List.mem_cons, List.not_mem_nil, or_false, not_or]
        exact ⟨hne (by omega), hne (by omega), hne (by omega), hne (by omega)⟩

theorem ten_not_mem_utf8Encode {cs : List Char} (h : '\n' ∉ cs) : 10 ∉ cs.utf8Encode.data.toList := by
  induction cs with
  | nil => exact List.not_mem_nil
  | cons c cs ih =>
    rw [List.mem_cons, not_or] at h
    rw [List.utf8Encode_cons, ByteArray.data_append, Array.toList_append, List.mem_append, not_or,
      utf8Encode_singleton]
    exact ⟨fun hten => h.1 (eq_of_mem_utf8EncodeChar hten).symm, ih h.2⟩

theorem Text.lines_append {front : List UInt8} (h : 10 ∉ front) (rest : List UInt8) :
    lines (front ++ 10 :: rest) = (front ++ [10]) :: lines rest := by
  induction front with
  | nil => rw [List.nil_append, lines, if_pos rfl, List.nil_append]
  | cons b front ih =>
    rw [List.mem_cons, not_or] at h
    rw [List.cons_append, lines, if_neg (Ne.symm h.1), ih h.2, List.cons_append]

/-- The bytes of lines are cut into the bytes of each line. -/
theorem lines_join {lines : List String} (h : ∀ line ∈ lines, IsLine line) :
    Text.lines (String.join lines).toUTF8.toList = lines.map fun line => line.toUTF8.toList := by
  have hlines : Text.lines (lines.flatMap String.toList).utf8Encode.data.toList =
      lines.map fun line => line.toUTF8.toList := by
    induction lines with
    | nil => rfl
    | cons line lines ih =>
      rw [List.forall_mem_cons] at h
      obtain ⟨cs, hcs, hnone⟩ := h.1.newline
      have hnewline : ['\n'].utf8Encode.data.toList = [10] := by decide
      have hbytes : line.toList.utf8Encode.data.toList = cs.utf8Encode.data.toList ++ [10] := by
        rw [hcs, utf8Encode_append, hnewline]
      rw [List.flatMap_cons, utf8Encode_append, List.map_cons, toList_toUTF8, hbytes, List.append_assoc,
        List.singleton_append, Text.lines_append (ten_not_mem_utf8Encode hnone), ih h.2]
  rw [toList_toUTF8, String.toList_join, hlines]

end bytes

/-- Statements are evaluated after others unless those end with a signal. -/
theorem Eval.block_append {M : Type → Type} [Monad M] [LawfulMonad M] [Host M] {ev : Scope → Expr → M Value}
    {scope : Scope} {stmts : List Stmt} (h : stmts ≠ []) (more : List Stmt) (last : Value) :
    block ev scope (stmts ++ more) last =
      block ev scope stmts .null >>= fun v => if v.isSignal then pure v else block ev scope more v := by
  induction stmts generalizing last with
  | nil => exact absurd rfl h
  | cons s stmts ih =>
    rw [List.cons_append, block_cons, block_cons, bind_assoc]
    apply congrArg
    funext v
    by_cases hv : v.isSignal
    · rw [if_pos hv, if_pos hv, pure_bind, if_pos hv]
    · rw [if_neg hv, if_neg hv]
      cases stmts with
      | nil =>
        rw [block_nil, pure_bind, if_neg hv]
        rfl
      | cons t stmts => exact ih (List.cons_ne_nil t stmts) v

/-- Evaluation sets no limit, and only adds to what has been written. -/
theorem Eval.output_of_block {depth : Nat} {scope : Scope} {stmts : List Stmt} {m m' : Machine} {v : Value}
    (hm : m.sink.limit = none) (h : block (eval depth) scope stmts .null m = some (v, m')) :
    m'.sink.limit = none ∧ ∃ output, m'.sink.written = m.sink.written ++ output := by
  have hcut := fails_block (fails_eval 0 depth) scope stmts .null m v m' hm h
  exact ⟨hcut.unlimited, hcut.written_eq⟩

theorem Action.sink_of_newGlobal {m m' : Machine} {scope : Scope} (h : newGlobal m = some (scope, m')) :
    m'.sink = m.sink := by
  obtain ⟨-, rfl⟩ := newGlobal_eq_some.1 h
  rfl

namespace Machine

variable {m : Machine}

/-- The machine after a text has been written. -/
def wrote (text : String) (m : Machine) : Machine :=
  { m with sink := (m.sink.write text).2 }

theorem limit_wrote (text : String) : (m.wrote text).sink.limit = m.sink.limit :=
  m.sink.limit_write text

theorem write_of_limit_eq_none (h : m.sink.limit = none) (text : String) :
    Action.write text m = some (true, m.wrote text) := by
  rw [Action.write_apply, wrote, Sink.write_of_limit_eq_none h]

/-- Without a limit it does not matter to the other run what one writes. -/
theorem Matches.wrote {names : String → Prop} {M : Matching names} {m' : Machine} (h : m.Matches M m')
    (hm : m.sink.limit = none) (text : String) : (m.wrote text).Matches M m' := by
  have hleft : (m.sink.write text).2.left = m'.sink.left := by
    rw [← h.left_eq, Sink.left, Sink.left, Sink.limit_write, hm]
    rfl
  exact h.written hleft

end Machine

/-- What comes of the statements of one line, before a return is unwrapped, and what they write. -/
structure Reply where
  result : Value
  output : ByteArray

section conversations

variable (depth : Nat) (prompt : String) (order : Arrangement)

/-- The shell answers lines in turn. A line without statements has no reply. For others the result is shown
after what the statements write. -/
inductive Answered (scope : Scope) : Machine → List String → List Reply → Machine → Prop
  | done (m : Machine) : Answered scope m [] [] m
  | silent {m n : Machine} {line : String} {lines : List String} {replies : List Reply} :
    (parse line).program = [] → Answered scope (m.wrote prompt) lines replies n →
    Answered scope m (line :: lines) replies n
  | reply {m m' n : Machine} {line : String} {lines : List String} {r : Reply} {replies : List Reply} :
    (parse line).program ≠ [] →
    Eval.block (eval depth) scope (parse line).program .null (m.wrote prompt) = some (r.result, m') →
    m'.sink.written = (m.wrote prompt).sink.written ++ r.output →
    Answered scope (m'.wrote (r.result.unwrapped.line m'.order)) lines replies n →
    Answered scope m (line :: lines) (r :: replies) n

/-- A whole conversation in a scope of its own, with a last prompt. -/
def Conversed (lines : List String) (replies : List Reply) (n : Machine) : Prop :=
  ∃ scope m m', Action.newGlobal (.new none order) = some (scope, m) ∧
    Answered depth prompt scope m lines replies m' ∧ n = m'.wrote prompt

end conversations

/-- No reply but the last is a signal, and if that is none either then `complete` holds. -/
inductive UpToSignal (complete : Prop) : List Reply → Prop
  | complete : complete → UpToSignal complete []
  | plain {r : Reply} {replies : List Reply} :
    r.result.isSignal = false → UpToSignal complete replies → UpToSignal complete (r :: replies)
  | signal {r : Reply} : r.result.isSignal → UpToSignal complete [r]

/-- All that the statements write, without what the shell adds. -/
def outputs : List Reply → ByteArray
  | [] => .empty
  | r :: replies => r.output ++ outputs replies

/-- The result of the last line that has one. -/
def lastResult (replies : List Reply) (before : Value) : Value :=
  (replies.map (·.result)).getLastD before

section answers

variable {depth : Nat} {prompt : String} {scope : Scope} {m n : Machine} {lines more : List String}
  {replies : List Reply}

theorem Answered.append_iff :
    Answered depth prompt scope m (lines ++ more) replies n ↔
      ∃ first later m', replies = first ++ later ∧ Answered depth prompt scope m lines first m' ∧
        Answered depth prompt scope m' more later n := by
  constructor
  · intro h
    induction lines generalizing m replies with
    | nil => exact ⟨[], replies, m, rfl, .done m, h⟩
    | cons line lines ih =>
      cases h with
      | silent hnone h =>
        obtain ⟨first, later, m', hsplit, hfirst, hlater⟩ := ih h
        exact ⟨first, later, m', hsplit, .silent hnone hfirst, hlater⟩
      | reply hsome hblock hwritten h =>
        obtain ⟨first, later, m', hsplit, hfirst, hlater⟩ := ih h
        exact ⟨_ :: first, later, m', congrArg _ hsplit, .reply hsome hblock hwritten hfirst, hlater⟩
  · rintro ⟨first, later, m', rfl, hfirst, hlater⟩
    induction hfirst with
    | done m => exact hlater
    | silent hnone _ ih => exact .silent hnone (ih hlater)
    | reply hsome hblock hwritten _ ih => exact .reply hsome hblock hwritten (ih hlater)

/-- What statements do is done without their places too, and then comes what follows them. What is written is the same
if no large hash is shown or all hashes are shown in one order. -/
theorem Eval.block_bare_append {stmts : List Stmt} (hstmts : stmts ≠ []) {M : Matching fun _ => True}
    {m' : Machine} {scope' : Scope} {v : Value} {output : ByteArray} (hmatch : m.Matches M m')
    (hscope : M.frames scope.frame scope'.frame) (hblock : block (eval depth) scope stmts .null m = some (v, n))
    (hwritten : n.sink.written = m.sink.written ++ output) :
    ∃ N v' n' seen, M.Within N ∧ v.Matches N v' ∧ n.Matches N n' ∧ n.order = m.order ∧ n'.order = m'.order ∧
      (m.order.Alike m'.order ∨ (∀ w ∈ shownIn seen, w.showsLargeHash = false) →
        n'.sink.written = m'.sink.written ++ output) ∧
      ∀ more last, block (Traced.eval depth) scope' (bareStmts stmts ++ more) last m' =
        let rest := (if v.isSignal then pure v' else block (Traced.eval depth) scope' more v' : Traced Value) n'
        (seen ++ rest.1, rest.2) := by
  rw [← Traced.action_block (Traced.action_eval depth)] at hblock
  have hmatches := matches_block (simulates_eval _ depth) hscope .null (stmtsMatch_bare stmts)
  obtain ⟨N, v', n', hblock', hN, hv, hn', hshown⟩ := hmatches.runs hmatch hblock
  have hshows := Traced.tells_block (Traced.tells_eval depth) scope stmts .null m v n hblock
  have hshows' := Traced.tells_block (Traced.tells_eval depth) scope' (bareStmts stmts) .null m' v' n' hblock'
  have hbare : bareStmts stmts ≠ [] := by
    rw [bareStmts_eq_map, ne_eq, List.map_eq_nil_iff]
    exact hstmts
  refine ⟨N, v', n', (block (Traced.eval depth) scope' (bareStmts stmts) .null m').1, hN, hv, hn', hshows.order_eq,
    hshows'.order_eq, fun horder => ?_, fun more last => ?_⟩
  · obtain ⟨more, hmore, hmore'⟩ :=
      hshown.written_eq hshows hshows' hmatch.left_eq (horder.imp_right hshown.small_iff.2)
    obtain rfl : more = output := by
      rw [← ByteArray.append_right_inj, ← hmore, hwritten]
    exact hmore'
  · rw [block_append hbare, hv.isSignal_eq]
    exact Traced.bind_of_some (Prod.ext rfl hblock')

/-- The statements of all lines in one block go the same way, up to the first signal. -/
theorem Answered.replay (h : Answered depth prompt scope m lines replies n) (hm : m.sink.limit = none)
    {M : Matching fun _ => True} {m' : Machine} {scope' : Scope} {last last' : Value} {rest : List Stmt}
    (hmatch : m.Matches M m') (hscope : M.frames scope.frame scope'.frame) (hlast : last.Matches M last')
    (hstop : UpToSignal (rest = []) replies) :
    ∃ N v n' seen, Eval.block (Traced.eval depth) scope'
        ((lines.flatMap fun line => bareStmts (parse line).program) ++ rest) last' m' = (seen, some (v, n')) ∧
      (lastResult replies last).Matches (N : Matching fun _ => True) v ∧ n'.order = m'.order ∧
      (m.order.Alike m'.order ∨ (∀ w ∈ shownIn seen, w.showsLargeHash = false) →
        n'.sink.written = m'.sink.written ++ outputs replies) := by
  induction h generalizing M m' last last' with
  | done m =>
    cases hstop with
    | complete hrest =>
      exact ⟨M, last', m', [], by rw [hrest]; rfl, hlast, rfl, fun _ => ByteArray.append_empty.symm⟩
  | silent hnone _ ih =>
    rw [List.flatMap_cons, hnone]
    exact ih ((Machine.limit_wrote prompt).trans hm) (hmatch.wrote hm prompt) hscope hlast hstop
  | @reply m m₁ n line lines r replies hsome hblock hwritten _ ih =>
    have hm₁ := (Eval.output_of_block ((Machine.limit_wrote prompt).trans hm) hblock).1
    obtain ⟨N, v, n', seen, hN, hv, hn', hsame, hsame', hwritten', hfirst⟩ :=
      Eval.block_bare_append hsome (hmatch.wrote hm prompt) hscope hblock hwritten
    rw [List.flatMap_cons, List.append_assoc, hfirst]
    cases hstop with
    | plain hplain hstop =>
      obtain ⟨O, w, o, more, hlater, hw, hsame'', ho⟩ :=
        ih ((Machine.limit_wrote _).trans hm₁) (hn'.wrote hm₁ _) (hN.frames hscope) hv hstop
      refine ⟨O, w, o, seen ++ more, ?_, ?_, hsame''.trans hsame', fun horder => ?_⟩
      · rw [hplain]
        exact congrArg (fun run : List Event × Option (Value × Machine) => (seen ++ run.1, run.2)) hlater
      · rw [lastResult, List.map_cons, List.getLastD_cons]
        exact hw
      · rw [shownIn_append, List.forall_mem_append] at horder
        have hrest : m₁.order.Alike n'.order ∨ ∀ w ∈ shownIn more, w.showsLargeHash = false :=
          hsame.symm ▸ hsame'.symm ▸ horder.imp_right (·.2)
        rw [ho hrest, hwritten' (horder.imp_right (·.1)), outputs, ByteArray.append_assoc]
    | signal hsignal =>
      refine ⟨N, v, n', seen, ?_, hv, hsame', fun horder => ?_⟩
      · rw [if_pos hsignal]
        exact congrArg (·, some (v, n')) (List.append_nil seen)
      · rw [hwritten' horder, outputs, outputs, ByteArray.append_empty]

end answers

namespace Shell

variable {α β : Type} {m n : Machine}

theorem run_bind_of_ok {x : Shell α} {a : α} (h : x.run m = some (.ok a, n)) (f : α → Shell β) :
    (x >>= f).run m = (f a).run n := by
  rw [ExceptT.run_bind]
  show ((x.run m).bind fun p => _) = _
  rw [h]
  rfl

theorem run_write_of_limit_eq_none (h : m.sink.limit = none) (text : String) :
    (write text).run m = some (.ok (), m.wrote text) := by
  rw [write, run_accepted]
  exact Action.bind_eq_some.2 ⟨true, m.wrote text, Machine.write_of_limit_eq_none h text, rfl⟩

theorem run_writeLine_of_limit_eq_none (h : m.sink.limit = none) (v : Value) :
    (writeLine v).run m = some (.ok (), m.wrote (v.line m.order)) := by
  rw [writeLine, run_accepted]
  exact Action.bind_eq_some.2 ⟨true, m.wrote (v.line m.order), Machine.write_of_limit_eq_none h _, rfl⟩

variable {depth : Nat} {prompt : String} {scope : Scope} {line : String}

theorem answerBytes_toUTF8 :
    answerBytes depth scope ⟨line.toUTF8.toList.toArray⟩ = answer depth scope line := by
  rw [toUTF8_of_toList, answerBytes, fromUTF8?_toUTF8]

theorem run_answer_of_nil (hline : (parse line).diagnostics = []) (h : (parse line).program = []) :
    (answer depth scope line).run m = some (.ok (), m) := by
  unfold answer
  dsimp only
  rw [hline, h]
  rfl

/-- Statements are evaluated, and their result is shown on a line of its own. -/
theorem run_answer_bind_iff (hline : (parse line).diagnostics = []) (h : (parse line).program ≠ [])
    (hm : m.sink.limit = none) (rest : Shell Unit) {r : Except IoError Unit × Machine} :
    (answer depth scope line >>= fun _ => rest).run m = some r ↔
      ∃ v m', Eval.block (eval depth) scope (parse line).program .null m = some (v, m') ∧
        rest.run (m'.wrote (v.unwrapped.line m'.order)) = some r := by
  have hanswer : (answer depth scope line >>= fun _ => rest).run =
      Eval.block (eval depth) scope (parse line).program .null >>= fun v =>
        (writeLine v.unwrapped >>= fun _ => rest).run := by
    unfold answer
    dsimp only
    rw [hline, if_neg (by rwa [List.isEmpty_iff]), List.map_nil, printErrors, pure_bind, bind_assoc,
      Action.run_lift_bind, Eval.program_eq, bind_assoc]
    rfl
  rw [hanswer, Action.bind_eq_some]
  refine exists_congr fun v => exists_congr fun m' => and_congr_right fun hblock => ?_
  rw [run_bind_of_ok (run_writeLine_of_limit_eq_none (Eval.output_of_block hm hblock).1 _)]

/-- The shell runs just as it answers the lines. -/
theorem run_converse_iff {lines : List String} (h : ∀ line ∈ lines, (parse line).diagnostics = [])
    (hm : m.sink.limit = none) (outcome : Except IoError Unit) :
    (converse depth prompt scope (lines.map fun line => line.toUTF8.toList)).run m = some (outcome, n) ↔
      outcome = .ok () ∧ ∃ replies m', Answered depth prompt scope m lines replies m' ∧
        n = m'.wrote prompt := by
  induction lines generalizing m with
  | nil =>
    rw [List.map_nil, converse, run_write_of_limit_eq_none hm, Option.some_inj, Prod.mk.injEq]
    constructor
    · rintro ⟨rfl, rfl⟩
      exact ⟨rfl, [], m, .done m, rfl⟩
    · rintro ⟨rfl, replies, m', hanswered, rfl⟩
      cases hanswered
      exact ⟨rfl, rfl⟩
  | cons line lines ih =>
    rw [List.forall_mem_cons] at h
    have hprompt : (m.wrote prompt).sink.limit = none := (Machine.limit_wrote prompt).trans hm
    rw [List.map_cons, converse, run_bind_of_ok (run_write_of_limit_eq_none hm prompt), answerBytes_toUTF8]
    by_cases hnone : (parse line).program = []
    · rw [run_bind_of_ok (run_answer_of_nil h.1 hnone), ih h.2 hprompt]
      constructor
      · rintro ⟨rfl, replies, m', hanswered, rfl⟩
        exact ⟨rfl, replies, m', .silent hnone hanswered, rfl⟩
      · rintro ⟨rfl, replies, m', hanswered, rfl⟩
        cases hanswered with
        | silent _ hanswered => exact ⟨rfl, replies, m', hanswered, rfl⟩
        | reply hsome => exact absurd hnone hsome
    · rw [run_answer_bind_iff h.1 hnone hprompt]
      have hlimit {stmts : List Stmt} {v : Value} {m₁ : Machine} (text : String)
          (hblock : Eval.block (eval depth) scope stmts .null (m.wrote prompt) = some (v, m₁)) :
          (m₁.wrote text).sink.limit = none :=
        (Machine.limit_wrote text).trans (Eval.output_of_block hprompt hblock).1
      constructor
      · rintro ⟨v, m₁, hblock, hrun⟩
        obtain ⟨-, output, houtput⟩ := Eval.output_of_block hprompt hblock
        obtain ⟨rfl, replies, m', hanswered, rfl⟩ := (ih h.2 (hlimit _ hblock)).1 hrun
        exact ⟨rfl, ⟨v, output⟩ :: replies, m', .reply hnone hblock houtput hanswered, rfl⟩
      · rintro ⟨rfl, replies, m', hanswered, rfl⟩
        cases hanswered with
        | silent hnone' => exact absurd hnone' hnone
        | reply _ hblock _ hanswered =>
          exact ⟨_, _, hblock, (ih h.2 (hlimit _ hblock)).2 ⟨rfl, _, m', hanswered, rfl⟩⟩

theorem run_start_iff {lines : List String} (h : ∀ line ∈ lines, IsLine line) (order : Arrangement)
    (outcome : Except IoError Unit) :
    (start depth prompt (String.join lines).toUTF8).run (.new none order) = some (outcome, n) ↔
      outcome = .ok () ∧ ∃ replies, Conversed depth prompt order lines replies n := by
  have hread (line : String) (hline : line ∈ lines) : (parse line).diagnostics = [] :=
    (h line hline).diagnostics
  rw [start, lines_join h, Action.run_lift_bind, Action.bind_eq_some]
  constructor
  · rintro ⟨scope, m, hglobal, hrun⟩
    have hlimit : m.sink.limit = none := congrArg Sink.limit (Action.sink_of_newGlobal hglobal)
    obtain ⟨rfl, replies, m', hanswered, rfl⟩ := (run_converse_iff hread hlimit outcome).1 hrun
    exact ⟨rfl, replies, scope, m, m', hglobal, hanswered, rfl⟩
  · rintro ⟨rfl, replies, scope, m, m', hglobal, hanswered, rfl⟩
    have hlimit : m.sink.limit = none := congrArg Sink.limit (Action.sink_of_newGlobal hglobal)
    exact ⟨scope, m, hglobal, (run_converse_iff hread hlimit _).2 ⟨rfl, replies, m', hanswered, rfl⟩⟩

end Shell

theorem UpToSignal.mono {complete complete' : Prop} {replies : List Reply} (h : UpToSignal complete replies)
    (hc : complete → complete') : UpToSignal complete' replies := by
  induction h with
  | complete h => exact .complete (hc h)
  | plain hplain _ ih => exact .plain hplain ih
  | signal hsignal => exact .signal hsignal

/-- A conversation begins like one of its first lines alone. -/
theorem Conversed.of_append {depth : Nat} {prompt : String} {order : Arrangement} {lines more : List String}
    {replies : List Reply} {n : Machine} (h : Conversed depth prompt order (lines ++ more) replies n) :
    ∃ first later n', replies = first ++ later ∧ Conversed depth prompt order lines first n' := by
  obtain ⟨scope, m, m', hglobal, hanswered, -⟩ := h
  obtain ⟨first, later, m₁, hsplit, hfirst, -⟩ := Answered.append_iff.1 hanswered
  exact ⟨first, later, _, hsplit, scope, m, m₁, hglobal, hfirst, rfl⟩

/-- All statements as one program write the same as in the conversation, up to the first signal, and have the
result shown last, if no large hash is shown or all hashes are shown in one order. -/
theorem Conversed.runs_alone {depth : Nat} {prompt : String} {order : Arrangement} {lines : List String}
    {replies : List Reply} {n : Machine} (h : Conversed depth prompt order lines replies n) {rest : List Stmt}
    (hstop : UpToSignal (rest = []) replies) (order' : Arrangement) :
    let stmts := (lines.flatMap fun line => bareStmts (parse line).program) ++ rest
    ∃ v n', runProgram depth stmts (.new none order') = some (v, n') ∧ n'.order = order' ∧
      v.type = (lastResult replies .null).unwrapped.type ∧
      (order.Alike order' ∨ ShowsNoLargeHash (Eval.alone (Traced.eval depth) stmts (.new none order')) →
        n'.sink.written = outputs replies ∧
          v.display order' = (lastResult replies .null).unwrapped.display order) := by
  intro stmts
  obtain ⟨scope, m, m', hglobal, hanswered, -⟩ := h
  obtain ⟨rfl, rfl⟩ := Action.newGlobal_eq_some.1 hglobal
  have hstart := Action.matches_newGlobal _ _ _ (.refl _)
    (Machine.matches_empty (fun _ => True) (Eq.refl (Machine.new none order).sink.left) :
      (Machine.new none order).Matches _ (.new none order'))
  rw [Action.newGlobal_apply, Action.newGlobal_apply] at hstart
  cases hstart with
  | both _ hscope hmatch =>
    obtain ⟨N, v, n', seen, hblock, hv, hsame, hwritten⟩ := hanswered.replay rfl hmatch hscope .null hstop
    obtain ⟨seen', hrun, hseen⟩ := Traced.alone_of_block (Action.newGlobal_apply (.new none order')) hblock
    refine ⟨v.unwrapped, n', ?_, hsame, hv.unwrapped.type_eq.symm, fun horder => ?_⟩
    · exact (congrFun (Traced.action_alone depth stmts) _).symm.trans (congrArg Prod.snd hrun)
    · rw [hrun] at horder
      refine ⟨?_, ?_⟩
      · rw [hwritten (horder.imp_right fun hsmall => hseen ▸ hsmall.1)]
        exact ByteArray.empty_append
      · refine (hv.unwrapped.display_eq_of_small (horder.imp_right fun hsmall => ?_)).symm
        rw [hv.unwrapped.showsLargeHash_eq]
        exact hsmall.2 _ _ rfl

/-- A script and a conversation agree. Lines of whole statements are read together as they are read one by
one. If the shell answers the lines up to the first whose result is a signal, or up to the last that has a
result, then the script of these and all later lines ends with a result of the type of the one shown last. If
the script shows no hash with two or more pairs, or both show all hashes in one order, then it writes what the
statements of the lines wrote, and its result has the text of the one shown last. -/
theorem script_follows_conversation (before after : List String) (h : ∀ line ∈ before ++ after, IsLine line) :
    ((parse (String.join (before ++ after))).diagnostics = [] ∧
      bareStmts (parse (String.join (before ++ after))).program =
        (before ++ after).flatMap fun line => bareStmts (parse line).program) ∧
    ∀ depth prompt order,
      (∀ lines, lines <+: before ++ after → ∀ outcome n,
        (Shell.start depth prompt (String.join lines).toUTF8).run (.new none order) = some (outcome, n) ↔
          outcome = .ok () ∧ ∃ replies, Conversed depth prompt order lines replies n) ∧
      (∀ replies n, Conversed depth prompt order (before ++ after) replies n →
        ∃ first later n', replies = first ++ later ∧ Conversed depth prompt order before first n') ∧
      ∀ replies n, Conversed depth prompt order before replies n →
        UpToSignal (∀ line ∈ after, ∀ c ∈ line.toList, Text.isBlank c) replies →
        ∀ order',
          let source := String.join (before ++ after)
          let traced := Eval.alone (Traced.eval depth) (parse source).program (.new none order')
          ∃ v m, runSource depth source (.new none order') = some (.ok v, m) ∧ traced.2 = some (v, m) ∧
            v.type = (lastResult replies .null).unwrapped.type ∧
            (order.Alike order' ∨ ShowsNoLargeHash traced →
              m.sink.written = outputs replies ∧
                v.display order' = (lastResult replies .null).unwrapped.display order) := by
  obtain ⟨hdiagnostics, hprogram⟩ := parse_join h
  refine ⟨⟨hdiagnostics, hprogram⟩, fun depth prompt order => ⟨fun lines hlines outcome n => ?_, ?_, ?_⟩⟩
  · exact Shell.run_start_iff (fun line hline => h line (hlines.subset hline)) order outcome
  · exact fun replies n hconversed => hconversed.of_append
  · intro replies n hconversed hstop order' source traced
    have hrest : UpToSignal ((after.flatMap fun line => bareStmts (parse line).program) = []) replies := by
      apply hstop.mono
      intro hblank
      rw [List.flatMap_eq_nil_iff]
      exact fun line hline => (parse_of_blank (hblank line hline)).2
    obtain ⟨w, n', hbare, hsame, htype, hw⟩ := hconversed.runs_alone hrest order'
    rw [← List.flatMap_append, ← hprogram] at hbare hw
    -- the program of the script has places, and runs like the one without them
    obtain ⟨htype', hsmall, hshown⟩ := shown_runProgram_bare depth (parse source).program none order' order'
    rw [hbare] at htype' hshown
    obtain ⟨⟨v, m⟩, hrun, hvtype⟩ := Option.map_eq_some_iff.1 htype'
    have htraced : traced.2 = some (v, m) := (congrFun (Traced.action_alone depth _) _).trans hrun
    refine ⟨v, m, ?_, htraced, hvtype.trans htype, fun horder => ?_⟩
    · rw [runSource_eq, if_pos hdiagnostics, hrun]
      rfl
    · obtain ⟨hwritten, hdisplay⟩ := hw (horder.imp_right hsmall.1)
      have hsame' := hshown (horder.imp_left Arrangement.Alike.right)
      rw [hrun] at hsame'
      obtain ⟨-, hdisplay', hwritten'⟩ : v.type = w.type ∧ v.display m.order = w.display n'.order ∧
          m.sink.written = n'.sink.written := by
        simpa only [shown, Option.map_some, Option.some_inj, Prod.mk.injEq] using hsame'
      rw [(Traced.tells_alone depth _ _ v m htraced).order_eq, hsame] at hdisplay'
      exact ⟨hwritten'.trans hwritten, hdisplay'.trans hdisplay⟩

/-- A return ends the script, with what the shell shows for its line. The shell itself would go on. -/
theorem script_follows_conversation_of_return :
    let before := ["puts(1);\n", "\n", "return 2;\n"]
    let after := ["puts(1);\n"]
    let replies := [⟨.null, "1\n".toUTF8⟩, ⟨.returned (.integer 2), .empty⟩]
    (∀ line ∈ before ++ after, IsLine line) ∧
      UpToSignal (∀ line ∈ after, ∀ c ∈ line.toList, Text.isBlank c) replies ∧
      (∃ n, Conversed 3 ">" .sorted before replies n ∧
        (Shell.start 3 ">" (String.join before).toUTF8).run (.new none .sorted) = some (.ok (), n) ∧
        n.sink.written = ">1\nnull\n>>2\n>".toUTF8) ∧
      ∃ v m, runSource 3 (String.join (before ++ after)) (.new none) = some (.ok v, m) ∧
        m.sink.written = "1\n".toUTF8 ∧ v.type = .integer ∧ v.display .sorted = "2" := by
  intro before after replies
  have hblank : ∀ c ∈ ['\n'], Text.isBlank c := List.forall_mem_singleton.2 rfl
  have hput : EndsWithSemicolon "puts(1);\n" :=
    ⟨by cbv, List.ne_nil_of_length_pos (by cbv), "puts(1)".toList, _, by decide, hblank,
      List.mem_of_getLast? (by cbv)⟩
  have hreturn : EndsWithSemicolon "return 2;\n" :=
    ⟨by cbv, List.ne_nil_of_length_pos (by cbv), "return 2".toList, _, by decide, hblank,
      List.mem_of_getLast? (by cbv)⟩
  have hputLine : IsLine "puts(1);\n" := ⟨⟨"puts(1);".toList, by decide, by decide⟩, .inr hput⟩
  have hreturnLine : IsLine "return 2;\n" := ⟨⟨"return 2;".toList, by decide, by decide⟩, .inr hreturn⟩
  have hblankLine : IsLine "\n" := ⟨⟨[], by decide, by decide⟩, .inl hblank⟩
  have hlines : ∀ line ∈ before ++ after, IsLine line := by
    simp only [before, after, List.cons_append, List.nil_append, List.forall_mem_cons]
    exact ⟨hputLine, hblankLine, hreturnLine, hputLine, List.forall_mem_nil _⟩
  have hstop : UpToSignal (∀ line ∈ after, ∀ c ∈ line.toList, Text.isBlank c) replies :=
    .plain rfl (.signal rfl)
  have htalk : ∃ n, Conversed 3 ">" .sorted ["puts(1);\n", "\n", "return 2;\n"]
      [⟨.null, "1\n".toUTF8⟩, ⟨.returned (.integer 2), .empty⟩] n ∧
      n.sink.written = ">1\nnull\n>>2\n>".toUTF8 :=
    ⟨_, ⟨_, _, _, rfl, .reply hput.program (by cbv) (by cbv)
      (.silent (by cbv) (.reply hreturn.program (by cbv) (by cbv) (.done _))), rfl⟩, by cbv⟩
  obtain ⟨n, hconversed, hshown⟩ := htalk
  obtain ⟨hstart, -, hscript⟩ := (script_follows_conversation before after hlines).2 3 ">" .sorted
  obtain ⟨v, m, hrun, -, htype, hshows⟩ := hscript replies n hconversed hstop .sorted
  obtain ⟨hwritten, hdisplay⟩ := hshows (Or.inl Arrangement.alike_sorted)
  have hshell := (hstart before (List.prefix_append before after) (.ok ()) n).2 ⟨rfl, replies, hconversed⟩
  refine ⟨hlines, hstop, ⟨n, hconversed, hshell, hshown⟩, v, m, hrun, hwritten.trans ?_, htype, ?_⟩
  · decide
  · rw [hdisplay]
    cbv

end Monkey
