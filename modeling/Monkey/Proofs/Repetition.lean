import Monkey.Proofs.Accounting
import Monkey.Proofs.Confinement
import Monkey.Proofs.Simulation
import Monkey.Proofs.Truncation

namespace Monkey

section programs

mutual

/-- An expression matches itself. -/
theorem Expr.matches_self : ∀ e : Expr, e.Matches (fun _ => True) e
  | .ident _ => .ident rfl trivial
  | .int n => .int n
  | .string s => .string s
  | .bool b => .bool b
  | .unary _ right => .unary rfl right.matches_self
  | .binary left _ right => .binary left.matches_self rfl right.matches_self
  | .cond test yes none => .cond test.matches_self (stmtsMatch_self yes)
  | .cond test yes (some no) => .condElse test.matches_self (stmtsMatch_self yes) (stmtsMatch_self no)
  | .function _ body => .function rfl (stmtsMatch_self body)
  | .call callee args => .call callee.matches_self (allMatch_self args)
  | .array elements => .array (allMatch_self elements)
  | .index left index => .index left.matches_self index.matches_self
  | .hash pairs => .hash (pairsMatch_self pairs)

theorem Stmt.matches_self : ∀ s : Stmt, s.Matches (fun _ => True) s
  | .bind _ value => .bind rfl value.matches_self
  | .give value => .give value.matches_self
  | .expr value => .expr value.matches_self

theorem allMatch_self : ∀ es : List Expr, AllMatch (fun _ => True) es es
  | [] => .nil
  | e :: es => .cons e.matches_self (allMatch_self es)

theorem pairsMatch_self : ∀ ps : List (Expr × Expr), PairsMatch (fun _ => True) ps ps
  | [] => .nil
  | (k, v) :: ps => .cons k.matches_self v.matches_self (pairsMatch_self ps)

theorem stmtsMatch_self : ∀ ss : List Stmt, StmtsMatch (fun _ => True) ss ss
  | [] => .nil
  | s :: ss => .cons s.matches_self (stmtsMatch_self ss)

end

end programs

/-- Up to some frame and mark all are the same in two runs. -/
def Matching.below (frames marks : Nat) : Matching fun _ => True where
  frames f f' := f = f' ∧ f < frames
  marks k k' := k = k' ∧ k < marks
  frames_iff := by
    rintro f _ g _ ⟨rfl, -⟩ ⟨rfl, -⟩
    exact Iff.rfl
  marks_iff := by
    rintro k _ l _ ⟨rfl, -⟩ ⟨rfl, -⟩
    exact Iff.rfl

/-- The object has been made: its mark has been given out and, if it is a function, its scope is there. -/
structure Machine.Made (m : Machine) (object : Value) : Prop where
  mark_lt : ∀ k, object.ref? = some (.made k) → k < m.marks
  scope_lt : ∀ mark c, object = .function mark c → c.scope.frame < m.store.frames.size

instance (m : Machine) : OfShared m.Made where
  holds _ h := by cases h <;> exact ⟨nofun, nofun⟩

theorem Machine.Follows.made {m : Machine} {L : Ledger} (hm : m.Follows L) {object : Value}
    (ho : L.Lists object) : m.Made object := by
  refine ⟨fun k' hk' => ?_, fun mark c hc => hm.size_eq ▸ ho.scope_lt mark c hc⟩
  cases ho.isOneOf with
  | inl hshared => exact (OfShared.holds (p := m.Made) _ hshared).mark_lt k' hk'
  | inr hmade =>
    obtain ⟨k, hk, hobject⟩ := hmade
    cases (Value.ref?_of_mark? hk).symm.trans hk'
    exact hm.marks_eq ▸ (List.getElem?_eq_some_iff.1 hobject).1

/-- What an object of the machine is known by stands for itself. -/
theorem Machine.Made.ref_matches {m : Machine} {object : Value} (h : m.Made object) :
    ∀ {ref : Ref}, object.ref? = some ref → ref.Matches (.below m.store.frames.size m.marks) ref
  | .null, _ => .null
  | .boolean b, _ => .boolean b
  | .builtin f, _ => .builtin f
  | .made k, hk => .made ⟨rfl, h.mark_lt k hk⟩

section values

variable {m : Machine}

mutual

/-- A value of the machine matches itself. -/
theorem Value.matches_self : ∀ v : Value, v.Every m.Made →
    v.Matches (.below m.store.frames.size m.marks) v
  | .integer n, _ => .integer n
  | .booleanAt _ b, h => .booleanAt b ((Value.every_booleanAt.1 h).ref_matches rfl)
  | .string s, _ => .string s
  | .nullAt _, h => .nullAt ((Value.every_nullAt.1 h).ref_matches rfl)
  | .array _ vs, h =>
    have ⟨hmade, hvs⟩ := Value.every_array.1 h
    .array ⟨rfl, hmade.mark_lt _ rfl⟩ (valuesMatch_self vs hvs)
  | .hash _ es, h =>
    have ⟨hmade, hes⟩ := Value.every_hash.1 h
    .hash ⟨rfl, hmade.mark_lt _ rfl⟩ (entriesMatch_self es hes)
  | .function mark c, h =>
    have hmade := Value.every_function.1 h
    .function ⟨rfl, hmade.mark_lt _ rfl⟩ rfl (stmtsMatch_self c.body) ⟨rfl, hmade.scope_lt mark c rfl⟩
  | .builtinAt _ f, h => .builtinAt f ((Value.every_builtinAt.1 h).ref_matches rfl)
  | .error e, _ => .error e
  | .returned v, h => .returned (v.matches_self (Value.every_returned.1 h))

theorem valuesMatch_self : ∀ vs : List Value, AllEvery m.Made vs →
    ValuesMatch (.below m.store.frames.size m.marks) vs vs
  | [], _ => .nil
  | v :: vs, h =>
    have ⟨hv, hvs⟩ := allEvery_cons.1 h
    .cons (v.matches_self hv) (valuesMatch_self vs hvs)

theorem entriesMatch_self : ∀ es : List (HashKey × Value × Value), EntriesEvery m.Made es →
    EntriesMatch (.below m.store.frames.size m.marks) es es
  | [], _ => .nil
  | (k, key, v) :: es, h =>
    have ⟨hkey, hv⟩ := h k key v List.mem_cons_self
    .cons (key.matches_self hkey) (v.matches_self hv)
      (entriesMatch_self es fun k key v he => h k key v (List.mem_cons_of_mem _ he))

end

end values

/-- A machine matches every later one in which its frames are as they were. -/
theorem Machine.Grows.matches {m m' : Machine} (h : m.Grows none m')
    (hbound : ∀ f y v, (m.store.bindings f).get? y = some v → v.Every m.Made) (hmarks : m.marks ≤ m'.marks)
    (hleft : m.sink.left = m'.sink.left) :
    m.Matches (.below m.store.frames.size m.marks) m' where
  frames_lt := by
    rintro f _ ⟨rfl, hf⟩
    exact ⟨hf, Nat.lt_of_lt_of_le hf h.size_le⟩
  marks_lt := by
    rintro k _ ⟨rfl, hk⟩
    exact ⟨hk, Nat.lt_of_lt_of_le hk hmarks⟩
  bindings := by
    rintro f _ y ⟨rfl, hf⟩ -
    rw [h.bindings_eq f hf nofun]
    cases hget : (m.store.bindings f).get? y with
    | none => exact .none
    | some v => exact .some (v.matches_self (hbound f y v hget))
  outer := by
    rintro f _ ⟨rfl, hf⟩
    rw [h.outer_eq f hf]
    cases hget : m.store.outer? f with
    | none => exact .none
    | some g => exact .some ⟨rfl, Nat.lt_trans (m.store.outer_lt f g hget) hf⟩
  left_eq := hleft

/-- A call gives no mark back. -/
theorem Eval.marks_le_of_apply {depth : Nat} {m m' : Machine} {f v : Value} {args : List Value}
    (hbound : ∀ f y w, (m.store.bindings f).get? y = some w → w.Every m.Made) (hf : f.Every m.Made)
    (hargs : AllEvery m.Made args) (h : apply (eval depth) f args m = some (v, m')) : m.marks ≤ m'.marks := by
  have hself := (Machine.Grows.refl none m).matches hbound (Nat.le_refl _) rfl
  have hcall := matches_apply (simulates_eval _ depth) (f.matches_self hf) (valuesMatch_self args hargs)
  rw [← Traced.action_apply (Traced.action_eval depth)] at h
  obtain ⟨N, _, m'', -, hN, -, hmatch, -⟩ := hcall.runs hself h
  refine Nat.le_of_not_lt fun hlt => ?_
  -- else the next mark would be one that stands for itself already
  exact Nat.lt_irrefl _ (hmatch.marks_lt (hN.marks ⟨rfl, hlt⟩)).1

/-- Functions have no hidden state: a call that ends on an unlimited sink ends again if it is made once more
right after, with a result of the same type. The output and the display of the result are the same too if no hash
with two or more pairs is shown, or if the order in which a hash is shown depends on its keys only. -/
theorem call_repeats (limit : Option Nat) (order : Arrangement) (depth depth' : Nat) (inputs : List (List Stmt))
    (m : Machine) (hm : .reached m ∈ (Traced.session depth inputs (.new limit order)).1) (s : Sink)
    (hs : s.limit = none) (f : Value) (hf : f.Every m.Made) (args : List Value) (hargs : AllEvery m.Made args)
    (v : Value) (m₁ : Machine) (h : Eval.apply (eval depth') f args { m with sink := s } = some (v, m₁)) :
    let traced := Eval.apply (Traced.eval depth') f args { m with sink := s }
    traced.2 = some (v, m₁) ∧
      ∃ v' m₂ output, Eval.apply (eval depth') f args m₁ = some (v', m₂) ∧ v'.type = v.type ∧
        m₁.sink.written = s.written ++ output ∧
        (order.Alike order ∨ ShowsNoLargeHash traced →
          m₂.sink.written = m₁.sink.written ++ output ∧ v'.display order = v.display order) := by
  intro traced
  obtain ⟨L, hfollows, horder⟩ := Ledger.follows_of_reached hm
  let m₀ : Machine := { m with sink := s }
  have hmade (object : Value) (ho : m.Made object) : m₀.Made object := ⟨ho.mark_lt, ho.scope_lt⟩
  have hf₀ : f.Every m₀.Made := hf.mono hmade
  have hargs₀ : AllEvery m₀.Made args := fun a ha => (hargs a ha).mono hmade
  have hbound (f : Nat) (y : String) (w : Value) (hw : (m₀.store.bindings f).get? y = some w) :
      w.Every m₀.Made := (hfollows.known f y w hw).mono fun o ho => hmade o (hfollows.made ho)
  -- the second call finds the frames of the first as they were, so it does the same up to what is new
  have hgrows : m₀.Grows none m₁ := Eval.confined_apply (confined_eval depth') f args m₀ v m₁ h
  have hlimit : m₁.sink.limit = none := (Eval.fails_apply (fails_eval 0 depth') f args m₀ v m₁ hs h).unlimited
  have hleft : m₀.sink.left = m₁.sink.left := by
    rw [Sink.left, Sink.left, hlimit, hs]
    rfl
  have hmatch := hgrows.matches hbound (Eval.marks_le_of_apply hbound hf₀ hargs₀ h) hleft
  have hcall := Eval.matches_apply (simulates_eval _ depth') (f.matches_self hf₀)
    (valuesMatch_self args hargs₀)
  have htells := Traced.tells_apply (Traced.tells_eval depth') f args
  have haction := Traced.action_apply (Traced.action_eval depth') f args
  rw [← haction] at h
  obtain ⟨N, v', m₂, hagain, -, hv, -, hshown⟩ := hcall.runs hmatch h
  have hshows := htells m₀ v m₁ h
  have horder₁ : m₁.order = order := hshows.order_eq.trans horder
  obtain ⟨output, houtput⟩ := hgrows.written_eq
  refine ⟨h, v', m₂, output, haction ▸ hagain, hv.type_eq.symm, houtput, fun hshow => ?_⟩
  obtain ⟨output', houtput', hwritten⟩ := hshown.written_eq hshows (htells m₁ v' m₂ hagain) hmatch.left_eq
    (horder₁.symm ▸ horder.symm ▸ hshow.imp_right (·.1))
  obtain rfl : output' = output := by
    rw [← ByteArray.append_right_inj, ← houtput', houtput]
  exact ⟨hwritten, (hv.display_eq_of_small (hshow.imp_right fun hsmall => hsmall.2 v m₁ h)).symm⟩

/-- After `let f = fn(x) { puts(x); [x] };`, the call `f("a")` writes a line and makes an array each time. -/
theorem call_repeats_of_line :
    let x : Ident := ⟨"x", .first, .first⟩
    let put : Expr := .call (.ident ⟨"puts", .first, .first⟩) [.ident x]
    let c : Closure := ⟨[x], [.expr put, .expr (.array [.ident x])], ⟨0⟩⟩
    let m : Machine := ⟨Store.empty.newGlobal.2.set ⟨0⟩ "f" (.function 0 c), 1, .unlimited, .sorted⟩
    let program : List Stmt := [.bind ⟨"f", .first, .first⟩ (.function c.params c.body)]
    let call := Eval.apply (eval 2) (.function 0 c) [.string "a"]
    .reached m ∈ (Traced.session 1 [program] (.new none)).1 ∧
      ∃ m₁ v m₂, call m = some (.array 1 [.string "a"], m₁) ∧ m₁.sink.written = "a\n".toUTF8 ∧
        call m₁ = some (v, m₂) ∧ m₂.sink.written = "a\na\n".toUTF8 ∧ v.type = .array ∧ v.display .sorted = "[a]" := by
  intro x put c m program call
  have hm : .reached m ∈ (Traced.session 1 [program] (.new none)).1 :=
    List.mem_of_getElem? (i := 3) (by with_unfolding_all rfl)
  have hcall : ∃ m₁, call m = some (.array 1 [.string "a"], m₁) ∧ m₁.sink.written = "a\n".toUTF8 :=
    ⟨_, by with_unfolding_all rfl, by with_unfolding_all rfl⟩
  obtain ⟨m₁, hm₁, hwritten⟩ := hcall
  have hf : (Value.function 0 c).Every m.Made := by
    refine Value.every_function.2 ⟨fun k hk => ?_, fun mark d hd => ?_⟩
    · cases hk
      exact Nat.zero_lt_one
    · cases hd
      exact Nat.zero_lt_one
  have hargs : AllEvery m.Made [.string "a"] := allEvery_cons.2 ⟨Value.every_string "a", allEvery_nil⟩
  obtain ⟨-, v, m₂, output, hagain, htype, hfirst, hsame⟩ := call_repeats none .sorted 1 2 [program] m hm
    .unlimited rfl (.function 0 c) hf [.string "a"] hargs _ m₁ hm₁
  obtain ⟨hsecond, hdisplay⟩ := hsame (Or.inl Arrangement.alike_sorted)
  obtain rfl : output = "a\n".toUTF8 := by
    rw [← hwritten, hfirst]
    exact ByteArray.empty_append.symm
  rw [hwritten] at hsecond
  exact ⟨hm, m₁, v, m₂, hm₁, hwritten, hagain, hsecond, htype, hdisplay⟩

end Monkey
