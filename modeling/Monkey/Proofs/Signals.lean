import Monkey.Proofs.Trace

namespace Monkey

mutual

/-- The value is no signal and holds none, at any depth. -/
def Value.isPlain : Value → Bool
  | .array _ elements => arePlain elements
  | .hash _ entries => pairsPlain entries
  | .error _ | .returned _ => false
  | _ => true

def arePlain : List Value → Bool
  | [] => true
  | v :: vs => v.isPlain && arePlain vs

def pairsPlain : List (HashKey × Value × Value) → Bool
  | [] => true
  | (_, key, v) :: rest => key.isPlain && v.isPlain && pairsPlain rest

end

/-- What a call, a program or an operator may give: a plain value or an error. -/
def Value.isOutcome : Value → Bool
  | .error _ => true
  | v => v.isPlain

/-- What an expression or a statement may give: besides, a return of a plain value. -/
def Value.isSettled : Value → Bool
  | .returned v => v.isPlain
  | v => v.isOutcome

theorem arePlain_iff (vs : List Value) : arePlain vs ↔ ∀ v ∈ vs, v.isPlain := by
  induction vs with
  | nil => simp [arePlain]
  | cons v vs ih => simp [arePlain, ih]

theorem pairsPlain_iff (entries : Entries) :
    pairsPlain entries ↔ ∀ k key v, (k, key, v) ∈ entries → key.isPlain ∧ v.isPlain := by
  induction entries with
  | nil => simp [pairsPlain]
  | cons entry entries ih =>
    simp only [pairsPlain, Bool.and_eq_true, ih, List.mem_cons]
    constructor
    · rintro ⟨h, hrest⟩ k key v (rfl | hmem)
      · exact h
      · exact hrest k key v hmem
    · intro h
      exact ⟨h _ _ _ (Or.inl rfl), fun k key v hmem => h k key v (Or.inr hmem)⟩

namespace Value

theorem isOutcome_of_isPlain {v : Value} (h : v.isPlain) : v.isOutcome := by
  cases v <;> first | rfl | exact h

theorem isSettled_of_isOutcome {v : Value} (h : v.isOutcome) : v.isSettled := by
  cases v <;> first | exact h | nomatch h

theorem isPlain_of_isSettled {v : Value} (h : v.isSettled) (hv : v.isSignal = false) : v.isPlain := by
  cases v <;> first | exact h | nomatch hv

theorem isOutcome_unwrapped {v : Value} (h : v.isSettled) : v.unwrapped.isOutcome := by
  cases v with
  | returned v => exact isOutcome_of_isPlain h
  | _ => exact h

theorem isOutcome_unary (op : Token) (v : Value) : (v.unary op).isOutcome := by
  unfold unary
  split
  · rfl
  · split <;> rfl
  · rfl

theorem isOutcome_binaryInteger (op : Token) (a b : Int64) : (binaryInteger op a b).isOutcome := by
  unfold binaryInteger
  split <;> first | rfl | (split <;> rfl)

theorem isOutcome_binary (op : Token) (a b : Value) : (binary op a b).isOutcome := by
  unfold binary
  split
  · exact isOutcome_binaryInteger op _ _
  · unfold binaryString
    split <;> rfl
  · unfold binaryObject
    split
    · rfl
    · rfl
    · split <;> rfl

theorem isPlain_elementAt {elements : List Value} (h : arePlain elements) (n : Int64) :
    (elementAt elements n).isPlain := by
  unfold elementAt
  split
  · rfl
  · cases hget : elements[n.toNatClampNeg]? with
    | none => rfl
    | some v => exact (arePlain_iff elements).1 h v (List.mem_of_getElem? hget)

theorem isPlain_of_get? {entries : Entries} (h : pairsPlain entries) (k : HashKey) :
    ((entries.get? k).getD null).isPlain := by
  unfold Entries.get?
  cases hget : List.lookup k entries with
  | none => rfl
  | some pair =>
    obtain ⟨before, after, rfl, -⟩ := List.lookup_eq_some_iff.1 hget
    exact ((pairsPlain_iff _).1 h k pair.1 pair.2 (by simp)).2

/-- Looking up in a plain value gives nothing but what is in it. -/
theorem isOutcome_indexed {a : Value} (ha : a.isPlain) (b : Value) : (a.indexed b).isOutcome := by
  unfold indexed
  split
  · exact isOutcome_of_isPlain (isPlain_elementAt ha _)
  · split
    · exact isOutcome_of_isPlain (isPlain_of_get? ha _)
    · rfl
  · rfl

end Value

theorem pairsPlain_insert {entries : Entries} {k : HashKey} {key v : Value} (h : pairsPlain entries)
    (hkey : key.isPlain) (hv : v.isPlain) : pairsPlain (entries.insert k key v) := by
  induction entries with
  | nil => simp [Entries.insert, pairsPlain, hkey, hv]
  | cons entry entries ih =>
    obtain ⟨k', key', v'⟩ := entry
    simp only [pairsPlain, Bool.and_eq_true] at h
    simp only [Entries.insert]
    split
    · simp [pairsPlain, hkey, hv, h.2]
    · split
      · simp [pairsPlain, hkey, hv, h]
      · simp [pairsPlain, ih h.2, h.1]

/-- No name is bound to a signal or to what holds one. -/
def Machine.Plain (m : Machine) : Prop :=
  ∀ frame name v, (name, v) ∈ m.store.bindings frame → v.isPlain

theorem Bindings.mem_set {bs : Bindings} {name other : String} {v w : Value}
    (h : (other, w) ∈ set name v bs) : w = v ∨ (other, w) ∈ bs := by
  induction bs with
  | nil => simp_all [set]
  | cons b bs ih =>
    simp only [set] at h
    split at h
    · rcases List.mem_cons.1 h with h | h
      · exact Or.inl (congrArg Prod.snd h)
      · exact Or.inr (List.mem_cons_of_mem b h)
    · rcases List.mem_cons.1 h with h | h
      · exact Or.inr (h ▸ List.mem_cons_self)
      · exact (ih h).imp id (List.mem_cons_of_mem b)

namespace Machine.Plain

variable {m : Machine} (hm : m.Plain)
include hm

theorem lookup? {scope : Scope} {name : String} {v : Value} (h : m.store.get? scope name = some v) :
    v.isPlain := by
  obtain ⟨frame, -, hv⟩ := List.exists_of_findSome?_eq_some h
  obtain ⟨before, after, hbs, -⟩ := List.lookup_eq_some_iff.1 hv
  exact hm frame name v (by rw [hbs]; simp)

theorem define {v : Value} (hv : v.isPlain) (scope : Scope) (name : String) :
    ({ m with store := m.store.set scope name v } : Machine).Plain := by
  intro frame other w hw
  rw [Store.bindings_set] at hw
  split at hw
  · rcases Bindings.mem_set hw with rfl | hw
    · exact hv
    · exact hm frame other w hw
  · exact hm frame other w hw

theorem push (outer : Option Nat) (h : ∀ frame ∈ outer, frame < m.store.frames.size) :
    ({ m with store := (m.store.push outer h).2 } : Machine).Plain := by
  intro frame name v hv
  rw [Store.bindings_push] at hv
  exact hm frame name v hv

end Machine.Plain

theorem Machine.plain_new (limit : Option Nat) (order : Arrangement) : (Machine.new limit order).Plain := by
  intro frame name v h
  simp [Machine.new, Store.empty, Store.bindings] at h

namespace Action

variable {α β : Type}

/-- From a machine without stored signals, the result is as wanted and no signal gets stored. -/
def Safe (x : Action α) (Q : α → Prop) : Prop :=
  ∀ m, m.Plain → ∀ a m', x m = some (a, m') → Q a ∧ m'.Plain

theorem safe_pure {a : α} {Q : α → Prop} (h : Q a) : Safe (pure a) Q := by
  intro m hm b m' hb
  obtain ⟨rfl, rfl⟩ := pure_eq_some.1 hb
  exact ⟨h, hm⟩

theorem Safe.bind {x : Action α} {f : α → Action β} {Q : α → Prop} {R : β → Prop} (hx : Safe x Q)
    (hf : ∀ a, Q a → Safe (f a) R) : Safe (x >>= f) R := by
  intro m hm b m' hb
  obtain ⟨a, m₁, hxa, hfa⟩ := bind_eq_some.1 hb
  obtain ⟨ha, hm₁⟩ := hx m hm a m₁ hxa
  exact hf a ha m₁ hm₁ b m' hfa

theorem safe_lookup? (scope : Scope) (name : String) :
    Safe (lookup? scope name) fun found => ∀ v ∈ found, v.isPlain := by
  intro m hm found m' h
  obtain ⟨rfl, rfl⟩ := lookup?_eq_some.1 h
  exact ⟨fun v hv => hm.lookup? hv, hm⟩

theorem safe_define {v : Value} (hv : v.isPlain) (scope : Scope) (name : String) :
    Safe (define scope name v) fun _ => True := by
  intro m hm u m' h
  obtain rfl := define_eq_some.1 h
  exact ⟨trivial, hm.define hv scope name⟩

theorem safe_newGlobal : Safe newGlobal fun _ => True := by
  intro m hm scope m' h
  obtain ⟨-, rfl⟩ := newGlobal_eq_some.1 h
  exact ⟨trivial, hm.push _ _⟩

theorem safe_newChild (outer : Scope) : Safe (newChild outer) fun _ => True := by
  intro m hm scope m' h
  obtain ⟨-, rfl⟩ := newChild_eq_some.1 h
  exact ⟨trivial, hm.push _ _⟩

theorem safe_newMark : Safe newMark fun _ => True := by
  intro m hm n m' h
  obtain ⟨-, rfl⟩ := newMark_eq_some.1 h
  exact ⟨trivial, hm⟩

theorem safe_write (text : String) : Safe (write text) fun _ => True := by
  intro m hm b m' h
  obtain ⟨-, rfl⟩ := write_eq_some.1 h
  exact ⟨trivial, hm⟩

theorem safe_writeLine (v : Value) : Safe (writeLine v) fun _ => True :=
  fun m => safe_write (v.line m.order) m

theorem safe_newArray {elements : List Value} (h : arePlain elements) :
    Safe (newArray elements) fun v => v.isOutcome :=
  safe_newMark.bind fun _ _ => safe_pure h

theorem safe_newHash {entries : Entries} (h : pairsPlain entries) :
    Safe (newHash entries) fun v => v.isOutcome :=
  safe_newMark.bind fun _ _ => safe_pure h

theorem safe_newFunction (closure : Closure) : Safe (newFunction closure) fun v => v.isOutcome :=
  safe_newMark.bind fun _ _ => safe_pure rfl

end Action

namespace Builtin

theorem safe_withOne {args : List Value} {f : Value → Action Value} (h : arePlain args)
    (hf : ∀ v, v.isPlain → (f v).Safe (·.isOutcome)) : (withOne args f).Safe (·.isOutcome) := by
  unfold withOne
  split
  · next v => exact hf v ((arePlain_iff _).1 h v List.mem_cons_self)
  · exact Action.safe_pure rfl

theorem safe_withArray (b : Builtin) {args : List Value} {f : List Value → Action Value}
    (h : arePlain args) (hf : ∀ elements, arePlain elements → (f elements).Safe (·.isOutcome)) :
    (withArray b args f).Safe (·.isOutcome) := by
  refine safe_withOne h fun v hv => ?_
  split
  · next mark elements => exact hf elements hv
  · exact Action.safe_pure rfl

theorem safe_putAll (args : List Value) : (putAll args).Safe (·.isOutcome) := by
  induction args with
  | nil => exact Action.safe_pure rfl
  | cons v args ih =>
    refine (Action.safe_writeLine v).bind fun accepted _ => ?_
    split
    · exact ih
    · exact Action.safe_pure rfl

/-- What a builtin function makes of plain arguments holds no signal, and it is none but an error. -/
theorem safe_call (b : Builtin) {args : List Value} (h : arePlain args) :
    (b.call args).Safe (·.isOutcome) := by
  cases b with
  | len =>
    refine safe_withOne h fun v _ => ?_
    split <;> exact Action.safe_pure rfl
  | first =>
    refine safe_withArray _ h fun elements helements => Action.safe_pure ?_
    cases elements with
    | nil => rfl
    | cons v vs =>
      have hplain := (arePlain_iff _).1 helements v List.mem_cons_self
      exact Value.isOutcome_of_isPlain hplain
  | last =>
    refine safe_withArray _ h fun elements helements => Action.safe_pure ?_
    cases hlast : elements.getLast? with
    | none => rfl
    | some v =>
      have hplain := (arePlain_iff _).1 helements v (List.mem_of_getLast? hlast)
      exact Value.isOutcome_of_isPlain hplain
  | rest =>
    refine safe_withArray _ h fun elements helements => ?_
    split
    · exact Action.safe_pure rfl
    · next v vs =>
      refine Action.safe_newArray ((arePlain_iff _).2 fun w hw => ?_)
      exact (arePlain_iff _).1 helements w (List.mem_cons_of_mem v hw)
  | push =>
    simp only [call]
    split
    · next mark elements v =>
      have hargs := (arePlain_iff _).1 h
      have helements : arePlain elements := hargs (.array mark elements) List.mem_cons_self
      refine Action.safe_newArray ((arePlain_iff _).2 fun w hw => ?_)
      rcases List.mem_append.1 hw with hw | hw
      · exact (arePlain_iff _).1 helements w hw
      · rw [List.mem_singleton.1 hw]
        exact hargs v (List.mem_cons_of_mem _ List.mem_cons_self)
    · exact Action.safe_pure rfl
    · exact Action.safe_pure rfl
  | puts => exact safe_putAll args

end Builtin

/-- What is to be seen of an evaluation in which signals stop whatever they arise in. -/
def Event.Settled : Event → Prop
  | reached m => m.Plain
  | gave v => v.isSettled
  | unary v => v.isPlain
  | binary a b | indexed a b => a.isPlain ∧ b.isPlain
  | called f args => f.isPlain ∧ arePlain args
  | builtin _ args => arePlain args
  | left v => v.isOutcome

namespace Traced
open Eval
open Guarded (plain result)

variable {α β : Type}

/-- From a machine without stored signals, all that is seen is settled, and so are the result and the machine
that is left. -/
def Safe (x : Traced α) (Q : α → Prop) : Prop :=
  ∀ m, m.Plain →
    (∀ event ∈ (x m).1, event.Settled) ∧ ∀ a m', (x m).2 = some (a, m') → Q a ∧ m'.Plain

theorem safe_pure {a : α} {Q : α → Prop} (h : Q a) : Safe (pure a) Q := by
  intro m hm
  refine ⟨fun event hevent => (nomatch hevent), fun b m' hb => ?_⟩
  obtain ⟨rfl, rfl⟩ := Action.pure_eq_some.1 hb
  exact ⟨h, hm⟩

theorem Safe.bind {x : Traced α} {f : α → Traced β} {Q : α → Prop} {R : β → Prop} (hx : Safe x Q)
    (hf : ∀ a, Q a → Safe (f a) R) : Safe (x >>= f) R := by
  intro m hm
  have hseen := (hx m hm).1
  have hleft := (hx m hm).2
  rcases hxm : x m with ⟨seen, _ | ⟨a, m₁⟩⟩
  · rw [hxm] at hseen
    rw [bind_of_none hxm]
    exact ⟨hseen, fun b m' hb => (nomatch hb)⟩
  · rw [hxm] at hseen hleft
    rw [bind_of_some hxm]
    obtain ⟨ha, hm₁⟩ := hleft a m₁ rfl
    have hrest := hf a ha m₁ hm₁
    -- what is seen of both is seen of the first or, from the machine that it left, of the second
    refine ⟨fun event hevent => ?_, hrest.2⟩
    rcases List.mem_append.1 hevent with hevent | hevent
    · exact hseen event hevent
    · exact hrest.1 event hevent

theorem Safe.mono {x : Traced α} {Q R : α → Prop} (hx : Safe x Q) (h : ∀ a, Q a → R a) : Safe x R := by
  intro m hm
  refine ⟨(hx m hm).1, fun a m' ha => ?_⟩
  obtain ⟨hQ, hm'⟩ := (hx m hm).2 a m' ha
  exact ⟨h a hQ, hm'⟩

theorem safe_note (event : Event) (h : event.Settled) : Safe (note event) fun _ => True := by
  intro m hm
  refine ⟨fun other hother => ?_, fun u m' hu => ?_⟩
  · rw [List.mem_singleton.1 hother]
    exact h
  · obtain rfl : m = m' := by simpa [note] using hu
    exact ⟨trivial, hm⟩

theorem Safe.noting {x : Traced α} {event : α → Event} {Q : α → Prop} (hx : Safe x Q)
    (h : ∀ a, Q a → (event a).Settled) : Safe (noting event x) Q :=
  hx.bind fun a ha => (safe_note (event a) (h a ha)).bind fun _ _ => safe_pure ha

theorem safe_step {x : Action α} {Q : α → Prop} (h : x.Safe Q) : Safe (step x) Q := by
  intro m hm
  have hx := h m hm
  unfold step
  rcases hxm : x m with _ | ⟨a, m₁⟩
  · exact ⟨fun event hevent => (nomatch hevent), fun b m' hb => (nomatch hb)⟩
  · obtain ⟨ha, hm₁⟩ := hx a m₁ hxm
    refine ⟨fun event hevent => ?_, fun b m' hb => ?_⟩
    · rw [List.mem_singleton.1 hevent]
      exact hm₁
    · obtain ⟨rfl, rfl⟩ := Action.pure_eq_some.1 hb
      exact ⟨ha, hm₁⟩

/-- As `Safe`, where a signal that leaves is settled too. -/
def Passes (g : ExceptT Value Traced α) (Q : α → Prop) : Prop :=
  Safe g.run fun
    | .ok a => Q a
    | .error v => v.isSettled

theorem passes_pure {a : α} {Q : α → Prop} (h : Q a) : Passes (pure a) Q :=
  safe_pure h

theorem passes_throw {v : Value} {Q : α → Prop} (h : v.isSettled) :
    Passes (throw v : ExceptT Value Traced α) Q :=
  safe_pure h

theorem Passes.bind {g : ExceptT Value Traced α} {f : α → ExceptT Value Traced β} {Q : α → Prop}
    {R : β → Prop} (hg : Passes g Q) (hf : ∀ a, Q a → Passes (f a) R) : Passes (g >>= f) R := by
  refine Safe.bind hg fun out hout => ?_
  cases out with
  | ok a => exact hf a hout
  | error v => exact safe_pure hout

theorem Safe.lift {x : Traced α} {Q : α → Prop} (hx : Safe x Q) :
    Passes (x : ExceptT Value Traced α) Q :=
  hx.bind fun _ ha => safe_pure ha

theorem Passes.before {event : Event} {g : ExceptT Value Traced α} {Q : α → Prop} (h : event.Settled)
    (hg : Passes g Q) : Passes (Guarded.before event g) Q :=
  (safe_note event h).bind fun _ _ => hg

/-- Only plain values get past the guard. -/
theorem Safe.plain {x : Traced Value} (hx : Safe x (·.isSettled)) :
    Passes (plain x) fun v => v.isPlain := by
  refine hx.lift.bind fun v hv => ?_
  split
  · exact passes_throw hv
  · next h => exact passes_pure (Value.isPlain_of_isSettled hv (Bool.not_eq_true _ ▸ h))

theorem Passes.result {g : ExceptT Value Traced Value} (hg : Passes g fun v => v.isSettled) :
    Safe (result g) fun v => v.isSettled := by
  refine Safe.bind hg fun out hout => ?_
  cases out with
  | ok v | error v => exact safe_pure hout

section eval

variable {ev : Scope → Expr → Traced Value} (hev : ∀ scope e, Safe (ev scope e) (·.isSettled))
include hev

theorem passes_values (scope : Scope) (es : List Expr) :
    Passes (values ev scope es) fun vs => arePlain vs := by
  induction es with
  | nil => exact passes_pure rfl
  | cons e es ih =>
    refine (hev scope e).plain.bind fun v hv => ih.bind fun vs hvs => passes_pure ?_
    simp [arePlain, hv, hvs]

theorem passes_entries (scope : Scope) (pairs : List (Expr × Expr)) {acc : Entries}
    (hacc : pairsPlain acc) : Passes (entries ev scope pairs acc) fun es => pairsPlain es := by
  induction pairs generalizing acc with
  | nil => exact passes_pure hacc
  | cons pair pairs ih =>
    refine (hev scope pair.1).plain.bind fun key hkey => ?_
    split
    · exact passes_throw rfl
    · exact (hev scope pair.2).plain.bind fun v hv => ih (pairsPlain_insert hacc hkey hv)

theorem safe_statement (scope : Scope) (s : Stmt) : Safe (statement ev scope s) (·.isSettled) := by
  cases s with
  | bind name e =>
    refine Safe.noting (Passes.result ((hev scope e).plain.bind fun v hv => ?_)) fun v hv => hv
    refine (safe_step (Action.safe_define hv scope name.name)).lift.bind fun _ _ => passes_pure ?_
    exact Value.isSettled_of_isOutcome (Value.isOutcome_of_isPlain hv)
  | give e =>
    refine Safe.noting (Passes.result ?_) fun v hv => hv
    exact (hev scope e).plain.bind fun v hv => passes_pure hv
  | expr e => exact hev scope e

theorem safe_block (scope : Scope) (stmts : List Stmt) {last : Value} (hlast : last.isSettled) :
    Safe (block ev scope stmts last) (·.isSettled) := by
  induction stmts generalizing last with
  | nil => exact safe_pure hlast
  | cons s stmts ih =>
    refine (safe_statement hev scope s).bind fun v hv => ?_
    split
    · exact safe_pure hv
    · exact ih hv

/-- The results of a body or a program, unwrapped, are no returns. -/
theorem safe_unwrapped (scope : Scope) (stmts : List Stmt) :
    Safe (do return (← block ev scope stmts .null).unwrapped) (·.isOutcome) :=
  (safe_block hev scope stmts rfl).bind fun _ hv => safe_pure (Value.isOutcome_unwrapped hv)

theorem safe_program (scope : Scope) (stmts : List Stmt) :
    Safe (program ev scope stmts) (·.isOutcome) :=
  (safe_unwrapped hev scope stmts).noting fun _ hv => hv

theorem safe_programs (scope : Scope) (inputs : List (List Stmt)) :
    Safe (programs ev scope inputs) fun _ => True := by
  induction inputs with
  | nil => exact safe_pure trivial
  | cons stmts inputs ih =>
    exact (safe_program hev scope stmts).bind fun _ _ => ih.bind fun _ _ => safe_pure trivial

omit hev in
theorem safe_bindAll (scope : Scope) (params : List Ident) {args : List Value} (h : arePlain args) :
    Safe (bindAll scope params args) fun _ => True := by
  induction params generalizing args with
  | nil => exact safe_pure trivial
  | cons p ps ih =>
    cases args with
    | nil => exact safe_pure trivial
    | cons v vs =>
      simp only [arePlain, Bool.and_eq_true] at h
      exact (safe_step (Action.safe_define h.1 scope p.name)).bind fun _ _ => ih h.2

theorem safe_apply {f : Value} {args : List Value} (hf : f.isPlain) (hargs : arePlain args) :
    Safe (apply ev f args) (·.isOutcome) := by
  refine (safe_note (.called f args) ⟨hf, hargs⟩).bind fun _ _ => Safe.noting ?_ fun v hv => hv
  cases f with
  | function mark c =>
    dsimp only
    split
    · exact safe_pure rfl
    -- a return goes no further than the body in which it arises
    · exact (safe_step (Action.safe_newChild c.scope)).bind fun scope _ =>
        (safe_bindAll scope c.params hargs).bind fun _ _ => safe_unwrapped hev scope c.body
  | builtinAt ref b =>
    exact (safe_note (.builtin b args) hargs).bind fun _ _ => safe_step (Builtin.safe_call b hargs)
  | _ => exact safe_pure rfl

omit hev in
theorem safe_ident (scope : Scope) (name : String) : (Eval.ident scope name).Safe (·.isOutcome) := by
  refine (Action.safe_lookup? scope name).bind fun found hfound => ?_
  split
  · exact Action.safe_pure (Value.isOutcome_of_isPlain (hfound _ rfl))
  · split <;> exact Action.safe_pure rfl

theorem safe_expression (scope : Scope) (e : Expr) :
    Safe (expression ev scope e) (·.isSettled) := by
  have houtcome (v : Value) : v.isOutcome → v.isSettled := Value.isSettled_of_isOutcome
  cases e with
  | ident id => exact (safe_step (safe_ident scope id.name)).mono houtcome
  | int n | string s | bool b => exact safe_pure rfl
  | unary op right =>
    exact Passes.result ((hev scope right).plain.bind fun v hv =>
      .before hv (passes_pure (houtcome _ (Value.isOutcome_unary op v))))
  | binary left op right =>
    exact Passes.result ((hev scope left).plain.bind fun a ha =>
      (hev scope right).plain.bind fun b hb =>
        .before ⟨ha, hb⟩ (passes_pure (houtcome _ (Value.isOutcome_binary op a b))))
  | cond test yes no =>
    refine Passes.result ((hev scope test).plain.bind fun v _ => ?_)
    split
    · exact (safe_block hev scope yes rfl).lift
    · split
      · exact (safe_block hev scope _ rfl).lift
      · exact passes_pure rfl
  | function params body =>
    exact (safe_step (Action.safe_newFunction _)).mono houtcome
  | call callee args =>
    exact Passes.result ((hev scope callee).plain.bind fun f hf =>
      (passes_values hev scope args).bind fun vs hvs =>
        ((safe_apply hev hf hvs).mono houtcome).lift)
  | array elements =>
    exact Passes.result ((passes_values hev scope elements).bind fun vs hvs =>
      ((safe_step (Action.safe_newArray hvs)).mono houtcome).lift)
  | index left index =>
    exact Passes.result ((hev scope left).plain.bind fun a ha =>
      (hev scope index).plain.bind fun b hb =>
        .before ⟨ha, hb⟩ (passes_pure (houtcome _ (Value.isOutcome_indexed ha b))))
  | hash pairs =>
    exact Passes.result ((passes_entries hev scope pairs rfl).bind fun es hes =>
      ((safe_step (Action.safe_newHash hes)).mono houtcome).lift)

end eval

theorem safe_eval (depth : Nat) (scope : Scope) (e : Expr) : Safe (eval depth scope e) (·.isSettled) := by
  induction depth generalizing scope e with
  | zero =>
    intro m _
    exact ⟨fun event hevent => (nomatch hevent), fun v m' hv => (nomatch hv)⟩
  | succ depth ih => exact (safe_expression ih scope e).noting fun _ hv => hv

theorem safe_session (depth : Nat) (inputs : List (List Stmt)) :
    Safe (session depth inputs) fun _ => True :=
  (safe_step Action.safe_newGlobal).bind fun scope _ => safe_programs (safe_eval depth) scope inputs

end Traced

/-- The traced session is the session itself, seen while it runs, and whatever is seen of it is settled. -/
theorem session_settled (limit : Option Nat) (order : Arrangement) (depth : Nat) (inputs : List (List Stmt)) :
    (Traced.session depth inputs (.new limit order)).2 = session depth inputs (.new limit order) ∧
      ∀ event ∈ (Traced.session depth inputs (.new limit order)).1, event.Settled :=
  ⟨congrFun (Traced.action_session depth inputs) (.new limit order),
    (Traced.safe_session depth inputs (.new limit order) (Machine.plain_new limit order)).1⟩

/-- In `let x = fn() { return 5; }();` the return is seen, with a plain value in it, but what the call
leaves and the name is bound to is the value. -/
theorem session_settled_of_return :
    let call : Expr := .call (.function [] [.give (.int 5)]) []
    let seen := (Traced.session 2 [[.bind ⟨"x", .first, .first⟩ call]] (.new none)).1
    (.gave (.returned (.integer 5)) ∈ seen ∧ (Event.gave (.returned (.integer 5))).Settled) ∧
      .left (.integer 5) ∈ seen ∧ (Event.left (.integer 5)).Settled := by
  intro call seen
  have hgave : .gave (.returned (.integer 5)) ∈ seen := List.mem_of_getElem? (i := 6) rfl
  have hleft : .left (.integer 5) ∈ seen := List.mem_of_getElem? (i := 7) rfl
  have hseen := (session_settled none .sorted 2 [[.bind ⟨"x", .first, .first⟩ call]]).2
  exact ⟨⟨hgave, hseen _ hgave⟩, hleft, hseen _ hleft⟩

end Monkey
