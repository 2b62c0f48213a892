import Monkey.Proofs.History
import Monkey.Proofs.Ledger

namespace Monkey

instance (n : Nat) : OfShared fun w => ∀ mark c, w = .function mark c → c.scope.frame < n :=
  ⟨fun _ h => by cases h <;> exact nofun⟩

/-- Every function in the value was made in one of the first `n` scopes. -/
abbrev Value.Scoped (n : Nat) (v : Value) : Prop :=
  v.Every fun w => ∀ mark c, w = .function mark c → c.scope.frame < n

abbrev AllScoped (n : Nat) (vs : List Value) : Prop :=
  AllEvery (fun w => ∀ mark c, w = .function mark c → c.scope.frame < n) vs

abbrev EntriesScoped (n : Nat) (es : Entries) : Prop :=
  EntriesEvery (fun w => ∀ mark c, w = .function mark c → c.scope.frame < n) es

section later

variable {n n' : Nat} (h : n ≤ n')
include h

theorem Value.Scoped.later {v : Value} (hv : v.Scoped n) : v.Scoped n' :=
  hv.mono fun _ hw mark c hc => Nat.lt_of_lt_of_le (hw mark c hc) h

theorem AllScoped.later {vs : List Value} (hvs : AllScoped n vs) : AllScoped n' vs :=
  fun v hv => Value.Scoped.later h (hvs v hv)

theorem EntriesScoped.later {es : Entries} (hes : EntriesScoped n es) : EntriesScoped n' es :=
  fun k key v he => (hes k key v he).imp (Value.Scoped.later h) (Value.Scoped.later h)

end later

namespace History

/-- All functions that were bound were made in scopes that there are. -/
def Closed (h : History) : Prop :=
  ∀ scope name v, .set scope name v ∈ h → v.Scoped h.outers.length

/-- The machine has the scopes that the history leaves. -/
structure Leads (h : History) (m : Machine) : Prop where
  valid : h.Valid
  closed : h.Closed
  store_eq : m.store = h.store

theorem length_outers_le (h more : History) : h.outers.length ≤ (History.outers (h ++ more)).length := by
  rw [outers_append, List.length_append]
  exact Nat.le_add_right _ _

namespace Leads

variable {h : History} {m : Machine} (hm : h.Leads m)
include hm

theorem concat {op : Operation} (hop : op.IsOn h.outers.length)
    (hclosed : ∀ scope name v, op = .set scope name v → v.Scoped h.outers.length) :
    Leads (h ++ [op]) { m with store := (m.store.perform op).2 } where
  valid := .concat hm.valid hop
  closed scope name v hmem := by
    refine Value.Scoped.later (length_outers_le h [op]) ?_
    rcases List.mem_append.1 hmem with hmem | hmem
    · exact hm.closed scope name v hmem
    · exact hclosed scope name v (List.mem_singleton.1 hmem).symm
  store_eq := by rw [store_concat, hm.store_eq]

/-- The scope that an operation makes is there after it. -/
theorem size_lt_concat {op : Operation} {outer : Option Nat} (houters : History.outers [op] = [outer]) :
    m.store.frames.size < (History.outers (h ++ [op])).length := by
  rw [hm.store_eq, hm.valid.leaves.size_eq, outers_append, houters, List.length_append]
  exact Nat.lt_succ_self _

/-- What is found was bound. -/
theorem scoped_of_get? {scope : Scope} {name : String} {v : Value} (hv : m.store.get? scope name = some v) :
    v.Scoped h.outers.length := by
  obtain ⟨f, -, hf⟩ := List.exists_of_findSome?_eq_some hv
  rw [hm.store_eq, hm.valid.leaves.get?_eq] at hf
  obtain ⟨op, hop, hfound⟩ := List.exists_of_findSome?_eq_some hf
  split at hfound
  · next scope' other w =>
    split at hfound
    · rw [← Option.some_inj.1 hfound]
      exact hm.closed scope' other w (List.mem_reverse.1 hop)
    · exact nomatch hfound
  · exact nomatch hfound

theorem finds {scope : Scope} (hscope : scope.frame < h.outers.length) (name : String) :
    h.Finds name scope.frame (m.store.get? scope name) := by
  rw [hm.store_eq]
  exact hm.valid.leaves.finds name scope.frame hscope

end Leads

end History

namespace Traced
open Eval
open Guarded (plain result)

variable {α β : Type}

/-- In a machine with a history of `n` scopes or more, all that is reached has a longer one. Then `Q` holds
of the result, where it is told how many scopes there are. -/
def Records (n : Nat) (x : Traced α) (Q : Nat → α → Prop) : Prop :=
  ∀ (h : History) m, n ≤ h.outers.length → h.Leads m →
    (∀ m', .reached m' ∈ (x m).1 → ∃ more, History.Leads (h ++ more) m') ∧
      ∀ a m', (x m).2 = some (a, m') →
        ∃ more, History.Leads (h ++ more) m' ∧ Q (History.outers (h ++ more)).length a

variable {n : Nat} {Q : Nat → α → Prop} {R : Nat → β → Prop}

theorem records_pure {a : α} (h : ∀ n', n ≤ n' → Q n' a) : Records n (pure a) Q := by
  intro h₁ m hn hm
  refine ⟨fun m' hm' => (nomatch hm'), fun b m' hb => ⟨[], ?_⟩⟩
  obtain ⟨rfl, rfl⟩ := Action.pure_eq_some.1 hb
  rw [List.append_nil]
  exact ⟨hm, h _ hn⟩

theorem Records.bind {x : Traced α} {f : α → Traced β} (hx : Records n x Q)
    (hf : ∀ n' a, n ≤ n' → Q n' a → Records n' (f a) R) : Records n (x >>= f) R := by
  intro h m hn hm
  have hseen := (hx h m hn hm).1
  have hleft := (hx h m hn hm).2
  rcases hxm : x m with ⟨seen, _ | ⟨a, m₁⟩⟩
  · rw [hxm] at hseen
    rw [bind_of_none hxm]
    exact ⟨hseen, fun b m' hb => (nomatch hb)⟩
  · rw [hxm] at hseen hleft
    rw [bind_of_some hxm]
    obtain ⟨more, hm₁, ha⟩ := hleft a m₁ rfl
    have hle := Nat.le_trans hn (History.length_outers_le h more)
    obtain ⟨hseen', hleft'⟩ := hf _ a hle ha _ m₁ (Nat.le_refl _) hm₁
    constructor
    · intro m' hm'
      rcases List.mem_append.1 hm' with hm' | hm'
      · exact hseen m' hm'
      · obtain ⟨more', hmore'⟩ := hseen' m' hm'
        exact ⟨more ++ more', List.append_assoc .. ▸ hmore'⟩
    · intro b m' hb
      obtain ⟨more', hmore'⟩ := hleft' b m' hb
      exact ⟨more ++ more', List.append_assoc .. ▸ hmore'⟩

theorem Records.map {x : Traced α} {f : α → β} (hx : Records n x Q) (hf : ∀ n' a, Q n' a → R n' (f a)) :
    Records n (x >>= fun a => pure (f a)) R := by
  intro h m hn hm
  have hrun := hx h m hn hm
  rcases hxm : x m with ⟨seen, _ | ⟨a, m₁⟩⟩
  · rw [hxm] at hrun
    rw [bind_of_none hxm]
    exact ⟨hrun.1, fun b m' hb => (nomatch hb)⟩
  · rw [hxm] at hrun
    rw [bind_of_some hxm, show (pure (f a) : Traced β) m₁ = ([], some (f a, m₁)) from rfl, List.append_nil]
    refine ⟨hrun.1, fun b m' hb => ?_⟩
    cases hb
    obtain ⟨more, hm₁, ha⟩ := hrun.2 a m₁ rfl
    exact ⟨more, hm₁, hf _ a ha⟩

theorem records_note (event : Event) (h : ∀ m, event ≠ .reached m) :
    Records n (note event) fun _ _ => True := by
  intro h₁ m _ hm
  refine ⟨fun m' hm' => absurd (List.mem_singleton.1 hm').symm (h m'), fun u m' hu => ⟨[], ?_, trivial⟩⟩
  obtain rfl : m = m' := by simpa [note] using hu
  rwa [List.append_nil]

theorem Records.noting {x : Traced Value} {event : Value → Event} (hx : Records n x fun n' v => v.Scoped n')
    (hevent : ∀ v m, event v ≠ .reached m) : Records n (noting event x) fun n' v => v.Scoped n' :=
  hx.bind fun _ v _ hv => (records_note (event v) (hevent v)).bind fun _ _ hn _ =>
    records_pure fun _ hn' => hv.later (Nat.le_trans hn hn')

/-- One step, which may be an operation on the scopes. -/
theorem records_step {x : Action α}
    (hx : ∀ (h : History) m a m', n ≤ h.outers.length → h.Leads m → x m = some (a, m') →
      ∃ more, History.Leads (h ++ more) m' ∧ Q (History.outers (h ++ more)).length a) :
    Records n (step x) Q := by
  intro h m hn hm
  unfold step
  cases hxm : x m with
  | none => exact ⟨fun m' hm' => (nomatch hm'), fun b m' hb => (nomatch hb)⟩
  | some r =>
    obtain ⟨a, m₁⟩ := r
    have hm₁ := hx h m a m₁ hn hm hxm
    refine ⟨fun m' hm' => ?_, fun b m' hb => ?_⟩
    · cases List.mem_singleton.1 hm'
      obtain ⟨more, hmore, -⟩ := hm₁
      exact ⟨more, hmore⟩
    · cases hb
      exact hm₁

theorem records_define {v : Value} (hv : v.Scoped n) {scope : Scope} (hscope : scope.frame < n)
    (name : String) : Records n (step (Action.define scope name v)) fun _ _ => True := by
  refine records_step fun h m u m' hn hm hdefine => ?_
  obtain rfl := Action.define_eq_some.1 hdefine
  refine ⟨[.set scope name v], hm.concat (Nat.lt_of_lt_of_le hscope hn) ?_, trivial⟩
  rintro _ _ _ ⟨⟩
  exact hv.later hn

theorem records_newGlobal : Records n (step Action.newGlobal) fun n' scope => scope.frame < n' := by
  refine records_step fun h m scope m' _ hm hglobal => ?_
  obtain ⟨rfl, rfl⟩ := Action.newGlobal_eq_some.1 hglobal
  exact ⟨[.newGlobal], hm.concat trivial nofun, hm.size_lt_concat rfl⟩

theorem records_newChild {outer : Scope} (houter : outer.frame < n) :
    Records n (step (Action.newChild outer)) fun n' scope => scope.frame < n' := by
  refine records_step fun h m scope m' hn hm hchild => ?_
  obtain ⟨rfl, rfl⟩ := Action.newChild_eq_some.1 hchild
  exact ⟨[.newChild outer], hm.concat (Nat.lt_of_lt_of_le houter hn) nofun, hm.size_lt_concat rfl⟩

/-- A step that leaves the scopes alone. -/
theorem records_step_of_store_eq {x : Action α}
    (hx : ∀ (h : History) m a m', n ≤ h.outers.length → h.Leads m → x m = some (a, m') →
      m'.store = m.store ∧ Q h.outers.length a) : Records n (step x) Q := by
  refine records_step fun h m a m' hn hm ha => ⟨[], ?_⟩
  obtain ⟨hstore, hQ⟩ := hx h m a m' hn hm ha
  rw [List.append_nil]
  exact ⟨⟨hm.valid, hm.closed, hstore.trans hm.store_eq⟩, hQ⟩

theorem records_ident (scope : Scope) (name : String) :
    Records n (step (Eval.ident scope name)) fun n' v => v.Scoped n' := by
  refine records_step_of_store_eq fun h m v m' _ hm hident => ?_
  obtain ⟨rfl, hv⟩ := Eval.ident_eq_some hident
  refine ⟨rfl, ?_⟩
  rcases hv with hv | ⟨b, rfl⟩ | ⟨e, rfl⟩
  · exact hm.scoped_of_get? hv
  · exact Value.every_builtin b
  · exact Value.every_error e

/-- An object is made with a new mark. -/
theorem records_make {x : Action Value} (object : Nat → Value)
    (hx : ∀ m, x m = some (object m.marks, { m with marks := m.marks + 1 }))
    (hobject : ∀ mark, (object mark).Scoped n) : Records n (step x) fun n' v => v.Scoped n' := by
  refine records_step_of_store_eq fun h m v m' hn _ hv => ?_
  rw [hx] at hv
  cases hv
  exact ⟨rfl, (hobject m.marks).later hn⟩

theorem records_newArray {vs : List Value} (hvs : AllScoped n vs) :
    Records n (step (Action.newArray vs)) fun n' v => v.Scoped n' :=
  records_make (.array · vs) (fun _ => rfl) fun _ => Value.every_array.2 ⟨fun _ _ h => (nomatch h), hvs⟩

theorem records_newHash {es : Entries} (hes : EntriesScoped n es) :
    Records n (step (Action.newHash es)) fun n' v => v.Scoped n' :=
  records_make (.hash · es) (fun _ => rfl) fun _ => Value.every_hash.2 ⟨fun _ _ h => (nomatch h), hes⟩

theorem records_newFunction {c : Closure} (hc : c.scope.frame < n) :
    Records n (step (Action.newFunction c)) fun n' v => v.Scoped n' := by
  refine records_make (.function · c) (fun _ => rfl) fun _ => Value.every_function.2 ?_
  rintro _ _ ⟨⟩
  exact hc

theorem records_builtin (b : Builtin) {args : List Value} (hargs : AllScoped n args) :
    Records n (step (b.call args)) fun n' v => v.Scoped n' := by
  have hdoes := Builtin.does_call b hargs
  generalize b.call args = x at hdoes
  cases hdoes with
  | @give v hv =>
    refine records_step_of_store_eq fun h m v' m' hn _ hgive => ?_
    obtain ⟨rfl, rfl⟩ := Action.pure_eq_some.1 hgive
    exact ⟨rfl, Value.Scoped.later hn hv⟩
  | make _ hvs => exact records_newArray hvs
  | write vs =>
    refine records_step_of_store_eq fun h m v m' _ _ hput => ?_
    obtain ⟨hv, s, rfl⟩ := Builtin.putAll_eq_some hput
    refine ⟨rfl, ?_⟩
    rcases hv with rfl | rfl
    · exact Value.every_null
    · exact Value.every_error _

/-- As `Records`, where a signal that leaves is told of too. -/
def Discloses (n : Nat) (g : ExceptT Value Traced α) (Q : Nat → α → Prop) : Prop :=
  Records n g.run fun n' out =>
    match out with
    | .ok a => Q n' a
    | .error v => v.Scoped n'

theorem discloses_pure {a : α} (h : ∀ n', n ≤ n' → Q n' a) : Discloses n (pure a) Q :=
  records_pure h

theorem discloses_throw {v : Value} (h : v.Scoped n) :
    Discloses n (throw v : ExceptT Value Traced α) Q :=
  records_pure fun _ hn => h.later hn

theorem Discloses.bind {g : ExceptT Value Traced α} {f : α → ExceptT Value Traced β} (hg : Discloses n g Q)
    (hf : ∀ n' a, n ≤ n' → Q n' a → Discloses n' (f a) R) : Discloses n (g >>= f) R := by
  refine Records.bind hg fun n' out hn hout => ?_
  cases out with
  | ok a => exact hf n' a hn hout
  | error v => exact records_pure fun _ hn' => Value.Scoped.later hn' hout

theorem Records.lift {x : Traced α} (hx : Records n x Q) : Discloses n (x : ExceptT Value Traced α) Q :=
  Records.map hx fun _ _ h => h

theorem Discloses.before {event : Event} {g : ExceptT Value Traced α} (hevent : ∀ m, event ≠ .reached m)
    (hg : Discloses n g Q) : Discloses n (Guarded.before event g) Q :=
  (records_note event hevent).bind fun _ _ hn _ h m hm => hg h m (Nat.le_trans hn hm)

theorem Records.plain {x : Traced Value} (hx : Records n x fun n' v => v.Scoped n') :
    Discloses n (plain x) fun n' v => v.Scoped n' := by
  refine hx.lift.bind fun n' v _ hv => ?_
  split
  · exact discloses_throw hv
  · exact discloses_pure fun _ hn => hv.later hn

theorem Discloses.result {g : ExceptT Value Traced Value} (hg : Discloses n g fun n' v => v.Scoped n') :
    Records n (result g) fun n' v => v.Scoped n' := by
  refine Records.bind hg fun n' out _ hout => ?_
  cases out with
  | ok v | error v => exact records_pure fun _ hn => Value.Scoped.later hn hout

section eval

variable {ev : Scope → Expr → Traced Value}
  (hev : ∀ n scope e, scope.frame < n → Records n (ev scope e) fun n' v => v.Scoped n')
include hev

theorem discloses_values {scope : Scope} (hscope : scope.frame < n) (es : List Expr) :
    Discloses n (values ev scope es) fun n' vs => AllScoped n' vs := by
  induction es generalizing n with
  | nil => exact discloses_pure fun _ _ => allEvery_nil
  | cons e es ih =>
    refine (hev n scope e hscope).plain.bind fun n₁ v hn₁ hv => ?_
    refine (ih (Nat.lt_of_lt_of_le hscope hn₁)).bind fun n₂ vs hn₂ hvs => ?_
    exact discloses_pure fun _ hn₃ => allEvery_cons.2 ⟨hv.later (Nat.le_trans hn₂ hn₃), hvs.later hn₃⟩

theorem discloses_entries {scope : Scope} (hscope : scope.frame < n) (pairs : List (Expr × Expr))
    {acc : Entries} (hacc : EntriesScoped n acc) :
    Discloses n (entries ev scope pairs acc) fun n' es => EntriesScoped n' es := by
  induction pairs generalizing n acc with
  | nil => exact discloses_pure fun _ hn => hacc.later hn
  | cons pair pairs ih =>
    refine (hev n scope pair.1 hscope).plain.bind fun n₁ key hn₁ hkey => ?_
    split
    · exact discloses_throw (Value.every_error _)
    · have hscope₁ := Nat.lt_of_lt_of_le hscope hn₁
      refine (hev n₁ scope pair.2 hscope₁).plain.bind fun n₂ v hn₂ hv => ?_
      refine ih (Nat.lt_of_lt_of_le hscope₁ hn₂) ?_
      exact (hacc.later (Nat.le_trans hn₁ hn₂)).insert (hkey.later hn₂) hv

theorem records_statement {scope : Scope} (hscope : scope.frame < n) (s : Stmt) :
    Records n (statement ev scope s) fun n' v => v.Scoped n' := by
  cases s with
  | bind name e =>
    refine Records.noting (Discloses.result ?_) nofun
    refine (hev n scope e hscope).plain.bind fun n₁ v hn₁ hv => ?_
    refine (records_define hv (Nat.lt_of_lt_of_le hscope hn₁) name.name).lift.bind fun _ _ hn₂ _ => ?_
    exact discloses_pure fun _ hn₃ => hv.later (Nat.le_trans hn₂ hn₃)
  | give e =>
    refine Records.noting (Discloses.result ?_) nofun
    exact (hev n scope e hscope).plain.bind fun _ v _ hv =>
      discloses_pure fun _ hn => Value.every_returned.2 (hv.later hn)
  | expr e => exact hev n scope e hscope

theorem records_block {scope : Scope} (hscope : scope.frame < n) (stmts : List Stmt) {last : Value}
    (hlast : last.Scoped n) : Records n (block ev scope stmts last) fun n' v => v.Scoped n' := by
  induction stmts generalizing n last with
  | nil => exact records_pure fun _ hn => hlast.later hn
  | cons s stmts ih =>
    refine (records_statement hev hscope s).bind fun n₁ v hn₁ hv => ?_
    split
    · exact records_pure fun _ hn => hv.later hn
    · exact ih (Nat.lt_of_lt_of_le hscope hn₁) hv

theorem records_unwrapped {scope : Scope} (hscope : scope.frame < n) (stmts : List Stmt) :
    Records n (do return (← block ev scope stmts .null).unwrapped) fun n' v => v.Scoped n' :=
  Records.map (records_block hev hscope stmts Value.every_null) fun _ _ hv => hv.unwrapped

theorem records_program {scope : Scope} (hscope : scope.frame < n) (stmts : List Stmt) :
    Records n (program ev scope stmts) fun n' v => v.Scoped n' :=
  (records_unwrapped hev hscope stmts).noting nofun

omit hev in
theorem records_bindAll {scope : Scope} (hscope : scope.frame < n) (params : List Ident) {args : List Value}
    (hargs : AllScoped n args) : Records n (bindAll scope params args) fun _ _ => True := by
  induction params generalizing n args with
  | nil => exact records_pure fun _ _ => trivial
  | cons p ps ih =>
    cases args with
    | nil => exact records_pure fun _ _ => trivial
    | cons v vs =>
      obtain ⟨hv, hvs⟩ := allEvery_cons.1 hargs
      exact (records_define hv hscope p.name).bind fun _ _ hn _ =>
        ih (Nat.lt_of_lt_of_le hscope hn) (AllScoped.later hn hvs)

theorem records_apply {f : Value} (hf : f.Scoped n) {args : List Value} (hargs : AllScoped n args) :
    Records n (apply ev f args) fun n' v => v.Scoped n' := by
  refine (records_note (.called f args) nofun).bind fun n₁ _ hn₁ _ => Records.noting ?_ nofun
  have hargs₁ := hargs.later hn₁
  cases f with
  | function mark c =>
    dsimp only
    split
    · exact records_pure fun _ _ => Value.every_error _
    -- the scope in which the function was made is there, so the call gets one inside it
    · have hscope : c.scope.frame < n₁ := Nat.lt_of_lt_of_le (Value.every_function.1 hf mark c rfl) hn₁
      refine (records_newChild hscope).bind fun n₂ scope hn₂ hscope => ?_
      refine (records_bindAll hscope c.params (hargs₁.later hn₂)).bind fun _ _ hn₃ _ => ?_
      exact records_unwrapped hev (Nat.lt_of_lt_of_le hscope hn₃) c.body
  | builtinAt ref b =>
    exact (records_note (.builtin b args) nofun).bind fun _ _ hn₂ _ => records_builtin b (hargs₁.later hn₂)
  | _ => exact records_pure fun _ _ => Value.every_error _

theorem records_expression {scope : Scope} (hscope : scope.frame < n) (e : Expr) :
    Records n (expression ev scope e) fun n' v => v.Scoped n' := by
  have hev₁ (e : Expr) {n₁ : Nat} (hn : n ≤ n₁) := (hev n₁ scope e (Nat.lt_of_lt_of_le hscope hn)).plain
  cases e with
  | ident id => exact records_ident scope id.name
  | int k => exact records_pure fun _ _ => Value.every_integer k
  | string s => exact records_pure fun _ _ => Value.every_string s
  | bool b => exact records_pure fun _ _ => Value.every_boolean b
  | unary op right =>
    refine Discloses.result ((hev₁ right (Nat.le_refl n)).bind fun _ v _ _ => ?_)
    exact .before nofun (discloses_pure fun _ _ => Value.every_unary op v)
  | binary left op right =>
    refine Discloses.result ((hev₁ left (Nat.le_refl n)).bind fun _ a hn _ => ?_)
    refine (hev₁ right hn).bind fun _ b _ _ => ?_
    exact .before nofun (discloses_pure fun _ _ => Value.every_binary op a b)
  | cond test yes no =>
    refine Discloses.result ((hev₁ test (Nat.le_refl n)).bind fun _ v hn _ => ?_)
    have hscope₁ := Nat.lt_of_lt_of_le hscope hn
    split
    · exact (records_block hev hscope₁ yes Value.every_null).lift
    · split
      · exact (records_block hev hscope₁ _ Value.every_null).lift
      · exact discloses_pure fun _ _ => Value.every_null
  | function params body => exact records_newFunction hscope
  | call callee args =>
    refine Discloses.result ((hev₁ callee (Nat.le_refl n)).bind fun _ f hn hf => ?_)
    refine (discloses_values hev (Nat.lt_of_lt_of_le hscope hn) args).bind fun _ vs hn₂ hvs => ?_
    exact (records_apply hev (hf.later hn₂) hvs).lift
  | array elements =>
    exact Discloses.result ((discloses_values hev hscope elements).bind fun _ _ _ hvs =>
      (records_newArray hvs).lift)
  | index left index =>
    refine Discloses.result ((hev₁ left (Nat.le_refl n)).bind fun _ a hn ha => ?_)
    refine (hev₁ index hn).bind fun _ b hn₂ _ => ?_
    refine .before nofun (discloses_pure fun _ hn₃ => ?_)
    exact (Value.Scoped.later (Nat.le_trans hn₂ hn₃) ha).indexed b
  | hash pairs =>
    exact Discloses.result ((discloses_entries hev hscope pairs .nil).bind fun _ _ _ hes =>
      (records_newHash hes).lift)

end eval

theorem records_eval (depth : Nat) (n : Nat) (scope : Scope) (e : Expr) (hscope : scope.frame < n) :
    Records n (eval depth scope e) fun n' v => v.Scoped n' := by
  induction depth generalizing n scope e with
  | zero => exact fun _ _ _ _ => ⟨fun _ h => (nomatch h), fun _ _ h => (nomatch h)⟩
  | succ depth ih => exact (records_expression ih hscope e).noting nofun

theorem records_programs {ev : Scope → Expr → Traced Value}
    (hev : ∀ n scope e, scope.frame < n → Records n (ev scope e) fun n' v => v.Scoped n')
    {scope : Scope} (hscope : scope.frame < n) (inputs : List (List Stmt)) :
    Records n (programs ev scope inputs) fun n' vs => AllScoped n' vs := by
  induction inputs generalizing n with
  | nil => exact records_pure fun _ _ => allEvery_nil
  | cons stmts inputs ih =>
    refine (records_program hev hscope stmts).bind fun n₁ v hn₁ hv => ?_
    refine (ih (Nat.lt_of_lt_of_le hscope hn₁)).bind fun n₂ vs hn₂ hvs => ?_
    exact records_pure fun _ hn₃ => allEvery_cons.2 ⟨hv.later (Nat.le_trans hn₂ hn₃), hvs.later hn₃⟩

theorem records_session (depth : Nat) (inputs : List (List Stmt)) :
    Records 0 (session depth inputs) fun n vs => AllScoped n vs :=
  records_newGlobal.bind fun _ _ _ hscope => records_programs (records_eval depth) hscope inputs

end Traced

/-- The scopes of the machine are what the history says, and so is what the names in it mean. -/
structure History.Explains (h : History) (m : Machine) : Prop where
  leads : h.Leads m
  lexical : h.Lexical
  ident : ∀ depth scope (id : Ident), scope.frame < h.outers.length →
    ∃ r v, h.Finds id.name scope.frame r ∧ eval (depth + 1) scope (.ident id) m = some (v, m) ∧
      match r, Builtin.named? id.name with
      | some w, _ => v = w
      | none, some b => v = .builtin b
      | none, none => ∃ e, v = .error e ∧ e.message = "identifier not found: " ++ id.name

theorem History.Leads.explains {h : History} {m : Machine} (hm : h.Leads m) : h.Explains m where
  leads := hm
  lexical := hm.valid.lexical
  ident depth scope id hscope := by
    rw [eval_ident]
    have hfinds := hm.finds hscope id.name
    have hlookup := Action.lookup?_apply scope id.name m
    cases hget : m.store.get? scope id.name with
    | some v =>
      rw [hget] at hfinds hlookup
      exact ⟨some v, v, hfinds, Action.bind_eq_some.2 ⟨_, m, hlookup, rfl⟩, rfl⟩
    | none =>
      rw [hget] at hfinds hlookup
      cases hnamed : Builtin.named? id.name with
      | some b =>
        refine ⟨none, .builtin b, hfinds, Action.bind_eq_some.2 ⟨_, m, hlookup, ?_⟩, rfl⟩
        rw [hnamed]
        rfl
      | none =>
        refine ⟨none, .error (.unboundName id.name), hfinds, Action.bind_eq_some.2 ⟨_, m, hlookup, ?_⟩, ?_⟩
        · rw [hnamed]
          rfl
        · exact ⟨_, rfl, rfl⟩

/-- Whatever is done to scopes, look-up in them is lexical. Evaluation leaves it so, wherever it begins, and an
identifier means what is found, or else a builtin function, or else it is an error. -/
theorem scopes_lexical (h : History) (hvalid : h.Valid) :
    h.Lexical ∧
      (∀ m, h.Closed → m.store = h.store → ∀ scope, scope.frame < h.outers.length →
        ∀ depth stmts,
          (Eval.program (Traced.eval depth) scope stmts m).2 = Eval.program (eval depth) scope stmts m ∧
          ∀ m', .reached m' ∈ (Eval.program (Traced.eval depth) scope stmts m).1 →
            ∃ more, History.Explains (h ++ more) m') ∧
      ∀ limit order depth inputs,
        (Traced.session depth inputs (.new limit order)).2 = session depth inputs (.new limit order) ∧
        ∀ m', .reached m' ∈ (Traced.session depth inputs (.new limit order)).1 →
          ∃ h' : History, h'.Explains m' := by
  refine ⟨hvalid.lexical, fun m hclosed hstore scope hscope depth stmts => ⟨?_, fun m' hm' => ?_⟩,
    fun limit order depth inputs => ⟨?_, fun m' hm' => ?_⟩⟩
  · exact congrFun (Traced.action_program (fun scope e => Traced.action_eval depth scope e) scope stmts) m
  · have hrecords := Traced.records_program (Traced.records_eval depth) hscope stmts
    obtain ⟨more, hmore⟩ := (hrecords h m (Nat.le_refl _) ⟨hvalid, hclosed, hstore⟩).1 m' hm'
    exact ⟨more, hmore.explains⟩
  · exact congrFun (Traced.action_session depth inputs) (.new limit order)
  · have hnew : History.Leads [] (.new limit order) := ⟨.nil, fun _ _ _ h => (nomatch h), rfl⟩
    obtain ⟨h', hh'⟩ := (Traced.records_session depth inputs [] _ (Nat.le_refl _) hnew).1 m' hm'
    exact ⟨h', hh'.explains⟩

/-- Two scopes bind `x`, both after the scope inside them was made. From there the nearer binding is found, and
from a scope beside them the outer one. -/
theorem scopes_lexical_of_shadowing :
    let h : History := [.newGlobal, .newChild ⟨0⟩, .newChild ⟨1⟩, .set ⟨0⟩ "x" (.integer 1),
      .set ⟨1⟩ "x" (.integer 2), .newChild ⟨0⟩]
    let m : Machine := ⟨h.store, 0, .unlimited, .sorted⟩
    let x : Ident := ⟨"x", .first, .first⟩
    let y : Ident := ⟨"y", .first, .first⟩
    h.Valid ∧ h.Closed ∧ h.Finds "x" 2 (some (.integer 2)) ∧ h.Finds "x" 3 (some (.integer 1)) ∧
      (∀ m', .reached m' ∈ (Eval.program (Traced.eval 2) ⟨2⟩ [.bind y (.ident x)] m).1 →
        ∃ more, History.Explains (h ++ more) m') ∧
      ∀ m', .reached m' ∈ (Traced.session 2 [[.bind y (.int 1)], [.expr (.ident y)]] (.new none)).1 →
        ∃ h' : History, h'.Explains m' := by
  intro h m x y
  have hchildren : History.Valid ([.newGlobal] ++ [.newChild ⟨0⟩] ++ [.newChild ⟨1⟩]) :=
    .concat (.concat (.concat (h := []) .nil trivial) (Nat.zero_lt_succ 0)) (Nat.lt_succ_self 1)
  have hbound : History.Valid ([.newGlobal, .newChild ⟨0⟩, .newChild ⟨1⟩] ++
      [.set ⟨0⟩ "x" (.integer 1)] ++ [.set ⟨1⟩ "x" (.integer 2)]) :=
    .concat (.concat hchildren (Nat.zero_lt_succ 2)) (Nat.succ_lt_succ (Nat.zero_lt_succ 1))
  have hvalid : h.Valid := .concat hbound (Nat.zero_lt_succ 2)
  have hclosed : h.Closed := by
    intro scope name v hmem
    simp only [h, List.mem_cons, reduceCtorEq, Operation.set.injEq, List.not_mem_nil, or_false,
      false_or] at hmem
    rcases hmem with ⟨-, -, rfl⟩ | ⟨-, -, rfl⟩ <;> exact Value.every_integer _
  obtain ⟨hlexical, hprogram, hsession⟩ := scopes_lexical h hvalid
  refine ⟨hvalid, hclosed, ?_, ?_, ?_, ?_⟩
  · exact hlexical.seen [.newGlobal, .newChild ⟨0⟩, .newChild ⟨1⟩, .set ⟨0⟩ "x" (.integer 1)] ⟨1⟩ "x"
      (.integer 2) [.newChild ⟨0⟩] rfl rfl 2 (.outward rfl rfl .own)
  · exact hlexical.seen [.newGlobal, .newChild ⟨0⟩, .newChild ⟨1⟩] ⟨0⟩ "x" (.integer 1)
      [.set ⟨1⟩ "x" (.integer 2), .newChild ⟨0⟩] rfl rfl 3 (.outward rfl rfl .own)
  · exact (hprogram m hclosed rfl ⟨2⟩ (Nat.lt_succ_of_lt (Nat.lt_succ_self 2)) 2 [.bind y (.ident x)]).2
  · exact (hsession none .sorted 2 [[.bind y (.int 1)], [.expr (.ident y)]]).2

end Monkey
