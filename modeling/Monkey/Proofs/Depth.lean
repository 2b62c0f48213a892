import Monkey.Proofs.Trace

namespace Monkey.Traced
open Eval
open Guarded (plain result)

variable {α β : Type}

theorem bind_eq_some {x : Traced α} {f : α → Traced β} {m : Machine} {seen : List Event} {r : β × Machine} :
    (x >>= f) m = (seen, some r) ↔
      ∃ first a m₁ rest, x m = (first, some (a, m₁)) ∧ f a m₁ = (rest, some r) ∧ seen = first ++ rest := by
  rcases hx : x m with ⟨first, _ | ⟨a, m₁⟩⟩
  · rw [bind_of_none hx]
    constructor
    · exact nofun
    · rintro ⟨_, _, _, _, h, -⟩
      exact nomatch h
  · rw [bind_of_some hx, Prod.mk.injEq]
    constructor
    · rintro ⟨rfl, hf⟩
      exact ⟨first, a, m₁, (f a m₁).1, rfl, Prod.ext rfl hf, rfl⟩
    · rintro ⟨_, _, _, rest, h, hf, rfl⟩
      cases h
      rw [hf]
      exact ⟨rfl, rfl⟩

/-- A guarded action goes on after a result, and is left by a signal. -/
theorem run_bind_eq_some {x : ExceptT Value Traced α} {f : α → ExceptT Value Traced β} {m m₂ : Machine}
    {seen : List Event} {out : Except Value β} (h : (x >>= f).run m = (seen, some (out, m₂))) :
    (∃ first a m₁ rest, x.run m = (first, some (.ok a, m₁)) ∧ (f a).run m₁ = (rest, some (out, m₂)) ∧
      seen = first ++ rest) ∨
      ∃ v, x.run m = (seen, some (.error v, m₂)) ∧ out = .error v := by
  obtain ⟨first, inner, m₁, rest, hx, hrest, rfl⟩ := bind_eq_some.1 h
  cases inner with
  | ok a => exact .inl ⟨first, a, m₁, rest, hx, hrest, rfl⟩
  | error v =>
    cases hrest
    rw [List.append_nil]
    exact .inr ⟨v, hx, rfl⟩

theorem run_plain_eq_some {x : Traced Value} {m m₁ : Machine} {seen : List Event} {out : Except Value Value}
    (h : (plain x).run m = (seen, some (out, m₁))) :
    ∃ v, x m = (seen, some (v, m₁)) ∧ out = if v.isSignal then .error v else .ok v := by
  obtain ⟨first, inner, m', rest, hlift, hrest, rfl⟩ := bind_eq_some.1 h
  obtain ⟨first, v, m', rest', hx, hpure, rfl⟩ := bind_eq_some.1 hlift
  cases hpure
  refine ⟨v, ?_⟩
  cases hv : v.isSignal
  all_goals
    simp only [ExceptT.bindCont, hv] at hrest
    cases hrest
    simpa using hx

theorem of_run_plain_ok {x : Traced Value} {m m₁ : Machine} {seen : List Event} {v : Value}
    (h : (plain x).run m = (seen, some (.ok v, m₁))) : x m = (seen, some (v, m₁)) ∧ v.isSignal = false := by
  obtain ⟨w, hx, hout⟩ := run_plain_eq_some h
  cases hw : w.isSignal <;> rw [hw] at hout <;> cases hout
  exact ⟨hx, hw⟩

theorem of_run_plain_error {x : Traced Value} {m m₁ : Machine} {seen : List Event} {v : Value}
    (h : (plain x).run m = (seen, some (.error v, m₁))) : x m = (seen, some (v, m₁)) ∧ v.isSignal := by
  obtain ⟨w, hx, hout⟩ := run_plain_eq_some h
  cases hw : w.isSignal <;> rw [hw] at hout <;> cases hout
  exact ⟨hx, hw⟩

/-- Where the first action has a result, the second one has it too, with the same events. -/
def Within (x y : Traced α) : Prop :=
  ∀ m seen r, x m = (seen, some r) → y m = (seen, some r)

theorem within_refl (x : Traced α) : Within x x :=
  fun _ _ _ h => h

theorem Within.bind {x y : Traced α} {f g : α → Traced β} (h : Within x y) (hf : ∀ a, Within (f a) (g a)) :
    Within (x >>= f) (y >>= g) := by
  intro m seen r hr
  obtain ⟨first, a, m₁, rest, hx, hfa, rfl⟩ := bind_eq_some.1 hr
  exact bind_eq_some.2 ⟨first, a, m₁, rest, h _ _ _ hx, hf a _ _ _ hfa, rfl⟩

theorem Within.noting {x y : Traced α} (h : Within x y) (event : α → Event) :
    Within (noting event x) (noting event y) :=
  h.bind fun _ => within_refl _

theorem Within.run_bind {x y : ExceptT Value Traced α} {f g : α → ExceptT Value Traced β}
    (h : Within x.run y.run) (hf : ∀ a, Within (f a).run (g a).run) : Within (x >>= f).run (y >>= g).run := by
  refine Within.bind h fun out => ?_
  cases out with
  | ok a => exact hf a
  | error v => exact within_refl _

theorem Within.run_lift {x y : Traced α} (h : Within x y) :
    Within (x : ExceptT Value Traced α).run (y : ExceptT Value Traced α).run :=
  h.bind fun _ => within_refl _

theorem Within.run_plain {x y : Traced Value} (h : Within x y) : Within (plain x).run (plain y).run :=
  h.run_lift.run_bind fun _ => within_refl _

theorem Within.result {x y : ExceptT Value Traced Value} (h : Within x.run y.run) :
    Within (result x) (result y) :=
  h.bind fun _ => within_refl _

section evaluators

variable {ev ev' : Scope → Expr → Traced Value} (hev : ∀ scope e, Within (ev scope e) (ev' scope e))
include hev

theorem within_values (scope : Scope) (es : List Expr) :
    Within (values ev scope es).run (values ev' scope es).run := by
  induction es with
  | nil => exact within_refl _
  | cons e es ih => exact (hev scope e).run_plain.run_bind fun _ => ih.run_bind fun _ => within_refl _

theorem within_entries (scope : Scope) (pairs : List (Expr × Expr)) (acc : Entries) :
    Within (entries ev scope pairs acc).run (entries ev' scope pairs acc).run := by
  induction pairs generalizing acc with
  | nil => exact within_refl _
  | cons pair pairs ih =>
    refine (hev scope pair.1).run_plain.run_bind fun key => ?_
    split
    · exact within_refl _
    · exact (hev scope pair.2).run_plain.run_bind fun _ => ih _

theorem within_statement (scope : Scope) (s : Stmt) : Within (statement ev scope s) (statement ev' scope s) := by
  cases s with
  | bind name e => exact ((hev scope e).run_plain.run_bind fun _ => within_refl _).result.noting _
  | give e => exact ((hev scope e).run_plain.run_bind fun _ => within_refl _).result.noting _
  | expr e => exact hev scope e

theorem within_block (scope : Scope) (stmts : List Stmt) (last : Value) :
    Within (block ev scope stmts last) (block ev' scope stmts last) := by
  induction stmts generalizing last with
  | nil => exact within_refl _
  | cons s stmts ih =>
    refine (within_statement hev scope s).bind fun v => ?_
    split
    · exact within_refl _
    · exact ih v

theorem within_apply (f : Value) (args : List Value) : Within (apply ev f args) (apply ev' f args) := by
  refine (within_refl _).bind fun _ => Within.noting ?_ _
  cases f with
  | function mark c =>
    dsimp only
    split
    · exact within_refl _
    · exact (within_refl _).bind fun scope => (within_refl _).bind fun _ =>
        (within_block hev scope _ _).bind fun _ => within_refl _
  | _ => exact within_refl _

theorem within_expression (scope : Scope) (e : Expr) : Within (expression ev scope e) (expression ev' scope e) := by
  cases e with
  | ident | int | string | bool | function => exact within_refl _
  | unary op right => exact ((hev scope right).run_plain.run_bind fun _ => within_refl _).result
  | binary left op right =>
    exact ((hev scope left).run_plain.run_bind fun _ => (hev scope right).run_plain.run_bind fun _ =>
      within_refl _).result
  | cond test yes no =>
    refine ((hev scope test).run_plain.run_bind fun v => ?_).result
    split
    · exact (within_block hev scope _ _).run_lift
    · split
      · exact (within_block hev scope _ _).run_lift
      · exact within_refl _
  | call callee args =>
    exact ((hev scope callee).run_plain.run_bind fun f => (within_values hev scope args).run_bind fun vs =>
      (within_apply hev f vs).run_lift).result
  | array elements => exact ((within_values hev scope elements).run_bind fun _ => within_refl _).result
  | index left index =>
    exact ((hev scope left).run_plain.run_bind fun _ => (hev scope index).run_plain.run_bind fun _ =>
      within_refl _).result
  | hash pairs => exact ((within_entries hev scope pairs []).run_bind fun _ => within_refl _).result

end evaluators

/-- More depth only adds results to those that a lower one has. -/
theorem within_eval {depth depth' : Nat} (h : depth ≤ depth') (scope : Scope) (e : Expr) :
    Within (eval depth scope e) (eval depth' scope e) := by
  induction depth generalizing depth' scope e with
  | zero => exact fun _ _ _ h => nomatch h
  | succ depth ih =>
    obtain ⟨depth', rfl⟩ := Nat.exists_eq_succ_of_ne_zero (Nat.ne_of_gt (Nat.lt_of_lt_of_le depth.succ_pos h))
    exact (within_expression (fun scope e => ih (Nat.le_of_succ_le_succ h) scope e) scope e).noting _

end Monkey.Traced
