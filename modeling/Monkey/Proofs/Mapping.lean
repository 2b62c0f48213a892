import Monkey.Proofs.MapText
import Monkey.Proofs.Repetition
import Monkey.Proofs.Turns

namespace Monkey

open Traced

section frames

theorem Machine.Grows.get?_eq {m m' : Machine} (h : m.Grows none m') {scope : Scope}
    (hscope : scope.frame < m.store.frames.size) (name : String) :
    m'.store.get? scope name = m.store.get? scope name :=
  Store.get?_congr (fun f hf => ⟨h.bindings_eq f (by omega) nofun, h.outer_eq f (by omega)⟩) name

/-- From one machine to a later one nothing is written, and what is there stays as it is. -/
structure Machine.Idles (m m' : Machine) : Prop where
  grows : m.Grows none m'
  marks_le : m.marks ≤ m'.marks
  sink_eq : m'.sink = m.sink

theorem Machine.Idles.trans {m m₁ m₂ : Machine} (h : m.Idles m₁) (h' : m₁.Idles m₂) : m.Idles m₂ :=
  ⟨h.grows.trans h'.grows, Nat.le_trans h.marks_le h'.marks_le, h'.sink_eq.trans h.sink_eq⟩

theorem Machine.idles_mark (m : Machine) : m.Idles { m with marks := m.marks + 1 } :=
  ⟨Action.confined_newMark m _ _ rfl, Nat.le_succ _, rfl⟩

/-- What stands for each other still does if one of the machines idles. -/
theorem Machine.Matches.idles {names : String → Prop} {M : Matching names} {p m m' : Machine} (hm : p.Matches M m)
    (h : m.Idles m') : p.Matches M m' where
  frames_lt hf := ⟨(hm.frames_lt hf).1, Nat.lt_of_lt_of_le (hm.frames_lt hf).2 h.grows.size_le⟩
  marks_lt hk := ⟨(hm.marks_lt hk).1, Nat.lt_of_lt_of_le (hm.marks_lt hk).2 h.marks_le⟩
  bindings hf hname := by
    rw [h.grows.bindings_eq _ (hm.frames_lt hf).2 nofun]
    exact hm.bindings hf hname
  outer hf := by
    rw [h.grows.outer_eq _ (hm.frames_lt hf).2]
    exact hm.outer hf
  left_eq := by
    rw [h.sink_eq]
    exact hm.left_eq

/-- A function with two parameters is entered. -/
theorem enters_two (m : Machine) {c : Closure} {a b : Ident} (hparams : c.params = [a, b])
    (hscope : c.scope.frame < m.store.frames.size) (v w : Value) :
    ∃ opened scope m₁, Enters c [v, w] m opened scope m₁ ∧ (∀ f, Plays f [] opened) ∧ m.Idles m₁ ∧
      m.store.frames.size ≤ scope.frame ∧ scope.frame < m₁.store.frames.size ∧
      ∀ name, m₁.store.get? scope name =
        if name = b.name then some w else if name = a.name then some v else m.store.get? c.scope name := by
  let scope := (m.store.newChild c.scope).1
  let opened := (m.store.newChild c.scope).2
  let m₁ : Machine := { m with store := (opened.set scope a.name v).set scope b.name w }
  have hchild := Action.newChild_grows (Action.newChild_apply c.scope m)
  have hsize : scope.frame < opened.frames.size := by
    show m.store.frames.size < (m.store.newChild c.scope).2.frames.size
    rw [Store.newChild, Store.size_push]
    exact Nat.lt_succ_self _
  have hsize' : scope.frame < (opened.set scope a.name v).frames.size := by rwa [Store.size_set]
  have hfirst := Action.confined_define scope a.name v { m with store := opened } _ _ rfl
  have hsecond := Action.confined_define scope b.name w { m with store := opened.set scope a.name v } _ _ rfl
  have hgrows : m.Grows none m₁ :=
    ((hchild.1.weaken _).trans (hfirst.trans hsecond)).forget (Nat.le_of_eq hchild.2.symm)
  refine ⟨_, scope, m₁, ⟨_, _, _, rfl, by rw [hparams]; rfl, rfl⟩, fun f => ?_, ⟨hgrows, Nat.le_refl _, rfl⟩,
    Nat.le_of_eq hchild.2.symm, ?_, fun name => ?_⟩
  · exact ((Plays.nil.reached _).reached _).reached _
  · show scope.frame < ((opened.set scope a.name v).set scope b.name w).frames.size
    rwa [Store.size_set]
  · show ((opened.set scope a.name v).set scope b.name w).get? scope name = _
    rw [Store.get?_set hsize', Store.get?_set hsize, Store.get?_newChild hscope]

end frames

/-- What `iter` is bound to in the scope of a call of `map`. -/
def iterIn (place : Nat → Position × Position) (mark : Nat) (scope : Scope) : Value :=
  .function mark ⟨[nameAt place 15 "arr", nameAt place 17 "accumulated"], iterBody place, scope⟩

/-- The builtin functions that `map` makes use of. -/
def helpers : List Builtin :=
  [.len, .first, .rest, .push]

/-- The calls that `map` makes for an element, the last of them of the given function. -/
def turnsFor (iter : Value) (call : Given) : List Turn :=
  [.own iter, .own (.builtin .len), .own (.builtin .rest), .own (.builtin .first), .given call]

/-- All calls up to the last element, and those that come after it. -/
def mapTurns (iter : Value) (last : List Turn) : List Given → List Turn
  | [] => last
  | call :: calls => turnsFor iter call ++ .own (.builtin .push) :: mapTurns iter last calls

/-- What a call of `map` has bound, as long as it goes on. -/
structure Machine.Ready (m : Machine) (place : Nat → Position × Position) (mark : Nat) (scope : Scope) (f : Value) :
    Prop where
  frame_lt : scope.frame < m.store.frames.size
  given_eq : m.store.get? scope "f" = some f
  iter_eq : m.store.get? scope "iter" = some (iterIn place mark scope)
  helpers_eq : ∀ b ∈ helpers, m.store.get? scope b.name = none

/-- In a call of `iter` its parameters are bound besides. -/
structure Machine.Inside (m : Machine) (place : Nat → Position × Position) (mark : Nat) (scope : Scope) (f : Value)
    (inner : Scope) (arr accumulated : Value) : Prop where
  arr_eq : m.store.get? inner "arr" = some arr
  accumulated_eq : m.store.get? inner "accumulated" = some accumulated
  given_eq : m.store.get? inner "f" = some f
  iter_eq : m.store.get? inner "iter" = some (iterIn place mark scope)
  helpers_eq : ∀ b ∈ helpers, m.store.get? inner b.name = none

section steps

variable {place : Nat → Position × Position} {mark : Nat} {scope : Scope} {f : Value} {m : Machine}

theorem Machine.Ready.grows (h : m.Ready place mark scope f) {m' : Machine} (hgrows : m.Grows none m') :
    m'.Ready place mark scope f where
  frame_lt := Nat.lt_of_lt_of_le h.frame_lt hgrows.size_le
  given_eq := (hgrows.get?_eq h.frame_lt _).trans h.given_eq
  iter_eq := (hgrows.get?_eq h.frame_lt _).trans h.iter_eq
  helpers_eq b hb := (hgrows.get?_eq h.frame_lt _).trans (h.helpers_eq b hb)

theorem name_ne_of_mem_helpers : ∀ b ∈ helpers, b.name ∉ ["arr", "accumulated", "f", "iter"] := by
  decide

/-- A call of `iter` comes to its body. -/
theorem Machine.Ready.enters (h : m.Ready place mark scope f) (arr accumulated : Value) :
    ∃ inner m₁, m.Idles m₁ ∧ m₁.Inside place mark scope f inner arr accumulated ∧
      ∀ {turns : List Turn} {v : Value} {m₂ : Machine},
        Makes f (fun depth => Eval.block (Traced.eval depth) inner (iterBody place) .null) m₁ turns v m₂ →
        Makes f (fun depth => Eval.apply (Traced.eval depth) (iterIn place mark scope) [arr, accumulated]) m
          (.own (iterIn place mark scope) :: turns) v.unwrapped m₂ := by
  obtain ⟨opened, inner, m₁, henters, hopened, hidles, -, -, hget⟩ :=
    enters_two m (c := ⟨[nameAt place 15 "arr", nameAt place 17 "accumulated"], iterBody place, scope⟩) rfl
      h.frame_lt arr accumulated
  refine ⟨inner, m₁, hidles, ⟨?_, ?_, ?_, ?_, fun b hb => ?_⟩, fun hbody =>
    Makes.apply_function henters (hopened f) rfl hbody mark⟩
  · simp [hget, nameAt]
  · simp [hget, nameAt]
  · simp [hget, nameAt, h.given_eq]
  · simp [hget, nameAt, h.iter_eq]
  · have hne := name_ne_of_mem_helpers b hb
    simp only [List.mem_cons, List.not_mem_nil, or_false, not_or] at hne
    rw [hget]
    simp only [nameAt, hne.1, hne.2.1, if_false]
    exact h.helpers_eq b hb

namespace Machine.Inside

variable {inner : Scope} {k b : Nat} {x : Value} {xs acc : List Value} {m' : Machine}
  {seen : List Event}

/-- A builtin function is found under its name, and its arguments are those of the call. -/
theorem makes_helper {arr accumulated : Value} (h : m.Inside place mark scope f inner arr accumulated) (id : Ident)
    (helper : Builtin) (hhelper : helper ∈ helpers) (hname : id.name = helper.name) {args : List Expr}
    {vs : List Value} {turns : List Turn} {v : Value} {m₁ m₂ : Machine}
    (hargs : Makes f (fun depth => (Eval.values (Traced.eval depth) inner args).run) m turns (.ok vs) m₁)
    (hcall : helper.call vs m₁ = some (v, m₂)) :
    Makes f (fun depth => Traced.eval depth inner (.call (.ident id) args)) m (turns ++ [.own (.builtin helper)]) v
      m₂ :=
  (makes_builtin_ident id hname (h.helpers_eq helper hhelper)).call rfl hargs (makes_apply_builtin hcall)

theorem makes_arr {arr accumulated : Value} (h : m.Inside place mark scope f inner arr accumulated)
    (harr : arr.isSignal = false) (n : Nat) :
    Makes f (fun depth => (Eval.values (Traced.eval depth) inner [.ident (nameAt place n "arr")]).run) m []
      (.ok [arr]) m :=
  (makes_ident _ h.arr_eq).values_cons harr (makes_values_nil inner m)

theorem makes_emptiness {accumulated : Value} (h : m.Inside place mark scope f inner (.array k xs) accumulated) :
    Makes f (fun depth => Traced.eval depth inner (emptiness place)) m [.own (.builtin .len)]
      (.boolean (Int64.ofNat xs.length = 0)) m :=
  (h.makes_helper _ .len (by decide) rfl (h.makes_arr rfl 24) rfl).binary rfl (makes_int inner 0 m) rfl
    ⟨.equal, "==", (place 26).1, (place 26).2⟩

theorem makes_onFirst {call : Given} {accumulated : Value}
    (h : m.Inside place mark scope f inner (.array k (call.arg :: xs)) accumulated) (hf : f.isSignal = false)
    (hx : call.arg.isSignal = false) (hcall : Applies f [call.arg] m seen call.result m')
    (hshown : shownIn seen = call.shown) :
    Makes f (fun depth => Traced.eval depth inner (onFirst place)) m [.own (.builtin .first), .given call] call.result
      m' := by
  have hfirst : Makes f (fun depth => Traced.eval depth inner
      (.call (.ident (nameAt place 47 "first")) [.ident (nameAt place 49 "arr")])) m [.own (.builtin .first)] call.arg
      m := h.makes_helper _ .first (by decide) rfl (h.makes_arr rfl 49) rfl
  have hargs := hfirst.values_cons hx (makes_values_nil inner m)
  exact (makes_ident _ h.given_eq).call hf hargs (makes_given hcall hshown)

theorem marked {arr accumulated : Value} (h : m.Inside place mark scope f inner arr accumulated) :
    ({ m with marks := m.marks + 1 } : Machine).Inside place mark scope f inner arr accumulated :=
  ⟨h.arr_eq, h.accumulated_eq, h.given_eq, h.iter_eq, h.helpers_eq⟩

theorem makes_rest {accumulated : Value} (h : m.Inside place mark scope f inner (.array k (x :: xs)) accumulated) :
    Makes f (fun depth => Traced.eval depth inner
        (.call (.ident (nameAt place 36 "rest")) [.ident (nameAt place 38 "arr")])) m [.own (.builtin .rest)]
      (.array m.marks xs) { m with marks := m.marks + 1 } :=
  h.makes_helper _ .rest (by decide) rfl (h.makes_arr rfl 38) rfl

/-- The call of `f` comes after the rest of the array has been made, and before anything is added. -/
theorem makes_next (call : Given)
    (h : m.Inside place mark scope f inner (.array k (call.arg :: xs)) (.array b acc))
    (hf : f.isSignal = false) (hx : call.arg.isSignal = false)
    (hcall : Applies f [call.arg] { m with marks := m.marks + 1 } seen call.result m')
    (hshown : shownIn seen = call.shown) (hw : call.result.isSignal = false)
    {turns : List Turn} {v : Value} {m₂ : Machine}
    (hiter : Makes f (fun depth => Eval.apply (Traced.eval depth) (iterIn place mark scope)
      [.array m.marks xs, .array m'.marks (acc ++ [call.result])]) { m' with marks := m'.marks + 1 } turns v m₂) :
    Makes f (fun depth => Traced.eval depth inner (next place)) m
      ([.own (.builtin .rest), .own (.builtin .first), .given call, .own (.builtin .push)] ++ turns) v m₂ := by
  have hadded := (makes_ident (nameAt place 43 "accumulated") h.marked.accumulated_eq).values_cons rfl
    ((h.marked.makes_onFirst hf hx hcall hshown).values_cons hw (makes_values_nil inner m'))
  have hpush := h.marked.makes_helper (nameAt place 41 "push") .push (by decide) rfl hadded rfl
  have hargs := h.makes_rest.values_cons rfl (hpush.values_cons rfl (makes_values_nil inner _))
  exact (makes_ident (nameAt place 34 "iter") h.iter_eq).call rfl hargs hiter

/-- If `f` gives a signal, nothing is added and nothing more is called. -/
theorem makes_stop (call : Given)
    (h : m.Inside place mark scope f inner (.array k (call.arg :: xs)) (.array b acc))
    (hf : f.isSignal = false) (hx : call.arg.isSignal = false)
    (hcall : Applies f [call.arg] { m with marks := m.marks + 1 } seen call.result m')
    (hshown : shownIn seen = call.shown) (hw : call.result.isSignal) :
    Makes f (fun depth => Traced.eval depth inner (next place)) m
      [.own (.builtin .rest), .own (.builtin .first), .given call] call.result m' := by
  have hadded := (makes_ident (nameAt place 43 "accumulated") h.marked.accumulated_eq).values_cons rfl
    ((h.marked.makes_onFirst hf hx hcall hshown).values_stop hw [])
  have hpush := (makes_builtin_ident (nameAt place 41 "push") (b := .push) rfl
    (h.marked.helpers_eq .push (by decide))).call_stop rfl hadded
  have hargs := h.makes_rest.values_cons rfl (hpush.values_stop hw [])
  exact (makes_ident (nameAt place 34 "iter") h.iter_eq).call_stop rfl hargs

theorem makes_body_nil (h : m.Inside place mark scope f inner (.array k []) (.array b acc)) :
    Makes f (fun depth => Eval.block (Traced.eval depth) inner (iterBody place) .null) m [.own (.builtin .len)]
      (.array b acc) m :=
  (h.makes_emptiness.cond_of_truthy rfl rfl
    ((makes_ident (nameAt place 30 "accumulated") h.accumulated_eq).block_of_expr .null) _).block_of_expr .null

theorem makes_body_cons (h : m.Inside place mark scope f inner (.array k (x :: xs)) (.array b acc))
    (hlength : (x :: xs).length < 2 ^ 64) {turns : List Turn} {v : Value} {m₂ : Machine}
    (hnext : Makes f (fun depth => Traced.eval depth inner (next place)) m turns v m₂) :
    Makes f (fun depth => Eval.block (Traced.eval depth) inner (iterBody place) .null) m
      (.own (.builtin .len) :: turns) v m₂ := by
  have hne : Int64.ofNat (x :: xs).length ≠ 0 := by
    intro hzero
    have hmod := congrArg (·.toBitVec.toNat) hzero
    simp only [Int64.toBitVec_ofNat', BitVec.toNat_ofNat, Nat.mod_eq_of_lt hlength] at hmod
    exact absurd hmod (Nat.succ_ne_zero _)
  refine (h.makes_emptiness.cond_of_not_truthy rfl ?_ (hnext.block_of_expr .null) _).block_of_expr .null
  rw [decide_eq_false hne]
  rfl

end Machine.Inside

end steps

/-- The function is called on the values one after the other, and has these results, none of which is a signal. What
is shown in the calls comes to one list. -/
inductive CalledOn (f : Value) : List Value → Machine → List Value → List Value → Machine → Prop
  | nil {m : Machine} : CalledOn f [] m [] [] m
  | cons {x w : Value} {xs ws shown : List Value} {m m₁ m₂ : Machine} {depth : Nat} :
    Eval.apply (eval depth) f [x] m = some (w, m₁) → w.isSignal = false → CalledOn f xs m₁ ws shown m₂ →
    CalledOn f (x :: xs) m (w :: ws) (shownIn (Eval.apply (Traced.eval depth) f [x] m).1 ++ shown) m₂

/-- While a machine idles, nothing is shown. -/
theorem Machine.Idles.shows {m m' : Machine} (h : m.Idles m') : m.Shows m' [] :=
  .nil h.grows.order_eq h.sink_eq

/-- What is shown is not more if the machine idles before or after. -/
theorem Machine.Shows.between {m m₁ m₂ m' : Machine} {shown : List Value} (h : m₁.Shows m₂ shown)
    (hbefore : m.Idles m₁) (hafter : m₂.Idles m') : m.Shows m' shown := by
  have hall := (hbefore.shows.trans h).trans hafter.shows
  rwa [List.nil_append, List.append_nil] at hall

/-- In another run, in which the machines match, the call is the same up to what is made in it. -/
theorem Eval.applies_again {M : Matching fun _ => True} {f x w : Value} {p p' m : Machine} {depth : Nat}
    (hcall : apply (eval depth) f [x] p = some (w, p')) (hm : p.Matches M m) (hf : f.Matches M f)
    (hx : x.Matches M x) :
    let shown := shownIn (apply (Traced.eval depth) f [x] p).1
    ∃ N seen w' m', Applies f [x] m seen w' m' ∧ M.Within N ∧ w.Matches N w' ∧ p'.Matches N m' ∧
      m.Grows none m' ∧ p.Shows p' shown ∧ m.Shows m' (shownIn seen) ∧ ValuesMatch N shown (shownIn seen) := by
  intro shown
  have haction := action_apply (action_eval depth) f [x]
  have htells := tells_apply (tells_eval depth) f [x]
  rw [← haction] at hcall
  obtain ⟨N, w', m', hagain, hN, hw, hm', hshown⟩ :=
    (matches_apply (simulates_eval _ depth) hf (.cons hx .nil)).runs hm hcall
  have hgrows := confined_apply (confined_eval depth) f [x] m w' m' (haction ▸ hagain)
  exact ⟨N, _, w', m', ⟨depth, Prod.ext rfl hagain⟩, hN, hw, hm', hgrows, htells p w p' hcall, htells m w' m' hagain,
    hshown⟩

section recursion

variable {place : Nat → Position × Position} {mark : Nat} {scope : Scope} {f : Value} {m : Machine}

theorem Machine.Ready.iter_nil (h : m.Ready place mark scope f) (k b : Nat) (acc : List Value) :
    ∃ m', m.Idles m' ∧
      Makes f (fun depth => Eval.apply (Traced.eval depth) (iterIn place mark scope) [.array k [], .array b acc]) m
        [.own (iterIn place mark scope), .own (.builtin .len)] (.array b acc) m' := by
  obtain ⟨inner, m', hidles, hinside, henters⟩ := h.enters (.array k []) (.array b acc)
  exact ⟨m', hidles, henters hinside.makes_body_nil⟩

/-- With an element left, `f` is called on it. What comes after depends on the result. -/
theorem Machine.Ready.iter_cons (h : m.Ready place mark scope f) (hf : f.isSignal = false) {x : Value}
    (hx : x.isSignal = false) {xs : List Value} (hlength : (x :: xs).length < 2 ^ 64) (k b : Nat) (acc : List Value) :
    ∃ m₁ k', m.Idles m₁ ∧ ∀ {seen : List Event} {w : Value} {m₂ : Machine}, Applies f [x] m₁ seen w m₂ →
      (w.isSignal = false → ∀ {last : List Turn} {v : Value} {m₃ : Machine}, v.unwrapped = v →
        Makes f (fun depth => Eval.apply (Traced.eval depth) (iterIn place mark scope)
          [.array k' xs, .array m₂.marks (acc ++ [w])]) { m₂ with marks := m₂.marks + 1 } last v m₃ →
        Makes f (fun depth => Eval.apply (Traced.eval depth) (iterIn place mark scope)
          [.array k (x :: xs), .array b acc]) m
          (turnsFor (iterIn place mark scope) ⟨x, w, shownIn seen⟩ ++ .own (.builtin .push) :: last) v m₃) ∧
      (w.isSignal → w.unwrapped = w →
        Makes f (fun depth => Eval.apply (Traced.eval depth) (iterIn place mark scope)
          [.array k (x :: xs), .array b acc]) m (turnsFor (iterIn place mark scope) ⟨x, w, shownIn seen⟩) w m₂) := by
  obtain ⟨inner, m₀, hidles, hinside, henters⟩ := h.enters (.array k (x :: xs)) (.array b acc)
  refine ⟨{ m₀ with marks := m₀.marks + 1 }, m₀.marks, hidles.trans m₀.idles_mark, fun {seen w _} hcall =>
    ⟨fun hw _ v _ hv hiter => ?_, fun hw hunwrapped => ?_⟩⟩
  · have hbody := henters (hinside.makes_body_cons hlength
      (hinside.makes_next ⟨x, w, shownIn seen⟩ hf hx hcall rfl hw hiter))
    rwa [hv] at hbody
  · have hbody := henters (hinside.makes_body_cons hlength
      (hinside.makes_stop ⟨x, w, shownIn seen⟩ hf hx hcall rfl hw))
    rwa [hunwrapped] at hbody

/-- The elements for which `f` gives no signal are done with one after the other. In the two runs, of the calls alone
and of `iter`, what is made stands for each other, and what is shown. -/
theorem CalledOn.iter {before ws shown : List Value} {p p' : Machine} (hcalled : CalledOn f before p ws shown p')
    (hf : f.isSignal = false) {M : Matching fun _ => True} (hready : m.Ready place mark scope f) (hm : p.Matches M m)
    (hself : f.Matches M f) (hbefore : ∀ x ∈ before, x.isSignal = false ∧ x.Matches M x) (after : List Value)
    (hlength : (before ++ after).length < 2 ^ 64) (k b : Nat) (acc : List Value) :
    ∃ N calls m' k' b', M.Within N ∧ calls.map (·.arg) = before ∧ ValuesMatch N ws (calls.map (·.result)) ∧
      p'.Matches N m' ∧ m.Grows none m' ∧ p.Shows p' shown ∧ m.Shows m' (calls.flatMap (·.shown)) ∧
      ValuesMatch N shown (calls.flatMap (·.shown)) ∧
      ∀ {last : List Turn} {v : Value} {m₂ : Machine}, v.unwrapped = v →
        Makes f (fun depth => Eval.apply (Traced.eval depth) (iterIn place mark scope)
          [.array k' after, .array b' (acc ++ calls.map (·.result))]) m' last v m₂ →
        Makes f (fun depth => Eval.apply (Traced.eval depth) (iterIn place mark scope)
          [.array k (before ++ after), .array b acc]) m (mapTurns (iterIn place mark scope) last calls) v m₂ := by
  induction hcalled generalizing M m k b acc with
  | @nil p =>
    refine ⟨M, [], m, k, b, .refl M, rfl, .nil, hm, .refl none m, .nil rfl rfl, .nil rfl rfl, .nil,
      fun _ hiter => ?_⟩
    rwa [List.map_nil, List.append_nil] at hiter
  | @cons x w xs ws more p p₁ p₂ depth hcall hw _ ih =>
    obtain ⟨⟨hx, hxself⟩, hxs⟩ := List.forall_mem_cons.1 hbefore
    obtain ⟨m₁, k', hidles, hiter⟩ := hready.iter_cons hf hx hlength k b acc
    obtain ⟨N, seen, w', m₂, hagain, hMN, hwN, hm₂, hgrows, hshows, hshows', hshown⟩ :=
      Eval.applies_again hcall (hm.idles hidles) hself hxself
    -- `push` makes an array after the call, which shows nothing
    have hmark := m₂.idles_mark
    have hplain : w'.isSignal = false := by rw [← hwN.isSignal_eq, hw]
    have hgrown := hidles.grows.trans (hgrows.trans hmark.grows)
    obtain ⟨O, calls, m', k'', b', hNO, hxs', hws, hm', hrest, hmore, hmore', hmatch, hgoes⟩ :=
      ih (hready.grows hgrown) (hm₂.idles hmark) (hself.later hMN)
        (fun y hy => ⟨(hxs y hy).1, (hxs y hy).2.later hMN⟩) (Nat.lt_of_succ_lt hlength) k' m₂.marks (acc ++ [w'])
    refine ⟨O, ⟨x, w', shownIn seen⟩ :: calls, m', k'', b', hMN.trans hNO, congrArg (x :: ·) hxs',
      .cons (hwN.later hNO) hws, hm', hgrown.trans hrest, hshows.trans hmore, ?_, ?_, fun hv hlast => ?_⟩
    · exact (hshows'.between hidles hmark).trans hmore'
    · exact (hshown.later hNO).append hmatch
    · refine (hiter hagain).1 hplain hv (hgoes hv ?_)
      rwa [List.append_assoc]

/-- What the statement gives and binds. -/
theorem map_of_statement {g : Scope} {m₀ m₁ : Machine} {depth : Nat} {map : Value}
    (h : Eval.statement (eval depth) g (mapLet place) m₀ = some (map, m₁)) :
    map = .function m₀.marks ⟨[nameAt place 5 "arr", nameAt place 7 "f"], mapBody place, g⟩ ∧
      m₁ = { m₀ with store := m₀.store.set g "map" map, marks := m₀.marks + 1 } := by
  cases depth with
  | zero => cases h
  | succ depth =>
    cases h
    exact ⟨rfl, rfl⟩

variable (place) in
/-- A call of `map` binds `iter` in a scope of its own, and calls it with an empty array to start from. -/
theorem makes_map {g : Scope} (hg : g.frame < m.store.frames.size)
    (hhelpers : ∀ b ∈ helpers, m.store.get? g b.name = none) (k₀ : Nat) (arr : Value) (harr : arr.isSignal = false)
    (f : Value) :
    let map : Value := .function k₀ ⟨[nameAt place 5 "arr", nameAt place 7 "f"], mapBody place, g⟩
    ∃ m₁ mark scope b, m.Idles m₁ ∧ m₁.Ready place mark scope f ∧ m.marks ≤ mark ∧
      ∀ {turns : List Turn} {v : Value} {m₂ : Machine}, v.unwrapped = v →
        Makes f (fun depth => Eval.apply (Traced.eval depth) (iterIn place mark scope) [arr, .array b []]) m₁ turns v
          m₂ →
        Makes f (fun depth => Eval.apply (Traced.eval depth) map [arr, f]) m (.own map :: turns) v m₂ := by
  intro map
  obtain ⟨opened, scope, m₀, henters, hopened, hidles, hle, hlt, hget⟩ :=
    enters_two m (c := ⟨[nameAt place 5 "arr", nameAt place 7 "f"], mapBody place, g⟩) rfl hg arr f
  let iter := iterIn place m₀.marks scope
  let bound : Machine := { m₀ with store := m₀.store.set scope "iter" iter, marks := m₀.marks + 1 }
  have hdefine := Action.confined_define scope "iter" iter { m₀ with marks := m₀.marks + 1 } () bound rfl
  have hgrows : m.Grows none bound :=
    ((hidles.grows.trans m₀.idles_mark.grows).weaken _ |>.trans hdefine).forget hle
  have hidles' : m.Idles bound := ⟨hgrows, Nat.le_succ_of_le hidles.marks_le, hidles.sink_eq⟩
  have hfound (name : String) : bound.store.get? scope name =
      if name = "iter" then some iter else if name = "f" then some f else if name = "arr" then some arr
        else m.store.get? g name := by
    show (m₀.store.set scope "iter" iter).get? scope name = _
    rw [Store.get?_set hlt, hget]
    rfl
  refine ⟨{ bound with marks := bound.marks + 1 }, m₀.marks, scope, bound.marks, hidles'.trans bound.idles_mark,
    ⟨?_, ?_, ?_, fun helper hhelper => ?_⟩, hidles.marks_le, fun {turns v m₂} hv hiter => ?_⟩
  · show scope.frame < (m₀.store.set scope "iter" iter).frames.size
    rwa [Store.size_set]
  · exact hfound "f"
  · exact hfound "iter"
  · have hne := name_ne_of_mem_helpers helper hhelper
    simp only [List.mem_cons, List.not_mem_nil, or_false, not_or] at hne
    refine (hfound helper.name).trans ?_
    rw [if_neg hne.2.2.2, if_neg hne.2.2.1, if_neg hne.1]
    exact hhelpers helper hhelper
  · have hargs := (makes_ident (f := f) (nameAt place 60 "arr") (hfound "arr")).values_cons harr
      ((makes_empty_array bound).values_cons rfl (makes_values_nil scope _))
    have hcall := (makes_ident (nameAt place 58 "iter") (hfound "iter")).call rfl hargs hiter
    have hbody := (makes_function (f := f) [nameAt place 15 "arr", nameAt place 17 "accumulated"] (iterBody place)
      m₀).block_of_bind (nameAt place 11 "iter") rfl (hcall.block_of_expr _) .null
    have happly := Makes.apply_function henters (hopened f) rfl hbody k₀
    rwa [hv] at happly

end recursion

/-- The value is a function that has not been made yet. -/
def Machine.Lacks (m : Machine) (v : Value) : Prop :=
  ∃ mark c, m.marks ≤ mark ∧ v = .function mark c

/-- All that is bound in the course of a session was made before. -/
theorem made_of_reached {limit : Option Nat} {order : Arrangement} {depth : Nat} {inputs : List (List Stmt)}
    {m : Machine} (hm : .reached m ∈ (Traced.session depth inputs (.new limit order)).1) {frame : Nat}
    {name : String} {v : Value} (hv : (m.store.bindings frame).get? name = some v) : v.Every m.Made := by
  obtain ⟨L, hfollows, -⟩ := Ledger.follows_of_reached hm
  exact (hfollows.known frame name v hv).mono fun object ho => hfollows.made ho

/-- The events of a run at some depth in which the calls are these. -/
theorem Traced.Makes.run {f h v : Value} {args : List Value} {m m' : Machine} {turns : List Turn}
    (hmakes : Makes f (fun depth => Eval.apply (Traced.eval depth) h args) m turns v m') :
    ∃ depth, Eval.apply (Monkey.eval depth) h args m = some (v, m') ∧
      Plays f turns (Eval.apply (Traced.eval depth) h args m).1 := by
  obtain ⟨seen, ⟨depth, hrun⟩, hturns⟩ := hmakes.applies
  refine ⟨depth, ?_, ?_⟩
  · rw [← action_apply (action_eval depth), action, hrun]
  · rwa [hrun]

/-- The function `map` calls the given function once for each element, from left to right, and makes an array of the
results. The first error is its own result, and no call comes after that. Besides it only calls builtin functions and
one that it makes itself. What it shows is what these calls show, one after the other, and it leaves all that is there
as it is. If the calls are made by themselves, their results and what they show are the same but for the marks and
frames of what is made in them. The length of an array is to be a number of 64 bits, since it would else be taken
modulo `2 ^ 64`. -/
theorem map_calls_in_turn (limit : Option Nat) (order : Arrangement) (depth : Nat) (inputs : List (List Stmt))
    {m : Machine} (hm : .reached m ∈ (Traced.session depth inputs (.new limit order)).1)
    {place : Nat → Position × Position} {g : Scope} {m₀ m₁ : Machine} {depth₀ : Nat} {map : Value}
    (hlet : Eval.statement (eval depth₀) g (mapLet place) m₀ = some (map, m₁))
    (hg : ∀ b ∈ helpers, m.store.get? g b.name = none) {mark : Nat} {xs : List Value} {f : Value}
    (hmade : AllEvery m.Made [map, .array mark xs, f]) (hxs : ∀ x ∈ xs, x.isSignal = false)
    (hlength : xs.length < 2 ^ 64) (hf : f.isSignal = false) :
    (Traced.session depth inputs (.new limit order)).2 = session depth inputs (.new limit order) ∧
    (∀ {ws shown : List Value} {p : Machine}, CalledOn f xs m ws shown p →
      ∃ N iter calls mark' m' depth', calls.map (·.arg) = xs ∧
        Eval.apply (eval depth') map [.array mark xs, f] m = some (.array mark' (calls.map (·.result)), m') ∧
        Plays f (.own map :: mapTurns iter [.own iter, .own (.builtin .len)] calls)
          (Eval.apply (Traced.eval depth') map [.array mark xs, f] m).1 ∧
        m.Shows m' (calls.flatMap (·.shown)) ∧ m.Grows none m' ∧ m.Lacks iter ∧
        (Matching.below m.store.frames.size m.marks).Within N ∧ ValuesMatch N ws (calls.map (·.result)) ∧
        m.Shows p shown ∧ ValuesMatch N shown (calls.flatMap (·.shown)) ∧
        (order.Alike order ∨ (∀ v ∈ shown, v.showsLargeHash = false) → m'.sink = p.sink)) ∧
    ∀ {before after : List Value} {x : Value} {ws shown : List Value} {p p' : Machine} {own : Nat} {e : RuntimeError},
      xs = before ++ x :: after → CalledOn f before m ws shown p →
      Eval.apply (eval own) f [x] p = some (.error e, p') →
      let all := shown ++ shownIn (Eval.apply (Traced.eval own) f [x] p).1
      ∃ N iter calls last m' depth', calls.map (·.arg) = before ∧
        Eval.apply (eval depth') map [.array mark xs, f] m = some (.error e, m') ∧
        Plays f (.own map :: mapTurns iter (turnsFor iter ⟨x, .error e, last⟩) calls)
          (Eval.apply (Traced.eval depth') map [.array mark xs, f] m).1 ∧
        m.Shows m' (calls.flatMap (·.shown) ++ last) ∧ m.Grows none m' ∧ m.Lacks iter ∧
        (Matching.below m.store.frames.size m.marks).Within N ∧ ValuesMatch N ws (calls.map (·.result)) ∧
        m.Shows p' all ∧ ValuesMatch N all (calls.flatMap (·.shown) ++ last) ∧
        (order.Alike order ∨ (∀ v ∈ all, v.showsLargeHash = false) → m'.sink = p'.sink) := by
  obtain ⟨rfl, -⟩ := map_of_statement hlet
  obtain ⟨L, -, rfl⟩ := Ledger.follows_of_reached hm
  have hmap := hmade _ List.mem_cons_self
  have harr := hmade (.array mark xs) (by simp)
  have hfmade := hmade f (by simp)
  have hscope : g.frame < m.store.frames.size := (Value.every_function.1 hmap).scope_lt _ _ rfl
  have helements := (Value.every_array.1 harr).2
  obtain ⟨m₂, k, scope, b, hidles, hready, hk, hstart⟩ := makes_map place hscope hg m₀.marks (.array mark xs) rfl f
  have hlacks : m.Lacks (iterIn place k scope) := ⟨k, _, hk, rfl⟩
  have hmatch : m.Matches (.below m.store.frames.size m.marks) m₂ :=
    hidles.grows.matches (fun _ _ _ => made_of_reached hm) hidles.marks_le (by rw [hidles.sink_eq])
  have hself (x : Value) (hx : x ∈ xs) : x.isSignal = false ∧ x.Matches (.below m.store.frames.size m.marks) x :=
    ⟨hxs x hx, x.matches_self (helements x hx)⟩
  refine ⟨congrFun (action_session depth inputs) _, fun {ws shown p} hcalled => ?_,
    fun {before after x ws shown p p' own e} hsplit hcalled hcall => ?_⟩
  · obtain ⟨N, calls, m₃, k', b', hN, hargs, hws, -, hgrows, hshows, hshows', hshown, hgoes⟩ :=
      hcalled.iter hf hready hmatch (f.matches_self hfmade) hself [] (by rwa [List.append_nil]) mark b []
    obtain ⟨m', hidles', hnil⟩ := (hready.grows hgrows).iter_nil k' b' ([] ++ calls.map (·.result))
    have hiter := hgoes rfl hnil
    rw [List.append_nil] at hiter
    obtain ⟨depth', hrun, hplays⟩ := (hstart rfl hiter).run
    have hall := hshows'.between hidles hidles'
    exact ⟨N, _, calls, b', m', depth', hargs, hrun, hplays, hall, hidles.grows.trans (hgrows.trans hidles'.grows),
      hlacks, hN, hws, hshows, hshown, hshown.sink_eq hshows hall⟩
  · subst hsplit
    obtain ⟨N, calls, m₃, k', b', hN, hargs, hws, hm₃, hgrows, hshows, hshows', hshown, hgoes⟩ :=
      hcalled.iter hf hready hmatch (f.matches_self hfmade) (fun y hy => hself y (List.mem_append_left _ hy)) _ hlength
        mark b []
    have hx := hself x (by simp)
    have hlength' : (x :: after).length < 2 ^ 64 := by
      rw [List.length_append] at hlength
      omega
    obtain ⟨m₄, k'', hidles', hcons⟩ :=
      (hready.grows hgrows).iter_cons hf hx.1 hlength' k' b' ([] ++ calls.map (·.result))
    obtain ⟨O, seen, w', m', hagain, hNO, hw', -, hgrows', hmore, hlast, hsame⟩ :=
      Eval.applies_again hcall (hm₃.idles hidles') ((f.matches_self hfmade).later hN) (hx.2.later hN)
    cases hw'
    obtain ⟨depth', hrun, hplays⟩ := (hstart rfl (hgoes rfl ((hcons hagain).2 rfl rfl))).run
    have hall := ((hidles.shows.trans hshows').trans hidles'.shows).trans hlast
    rw [List.nil_append, List.append_nil] at hall
    have hboth := (hshown.later hNO).append hsame
    exact ⟨O, _, calls, _, m', depth', hargs, hrun, hplays, hall,
      hidles.grows.trans (hgrows.trans (hidles'.grows.trans hgrows')), hlacks, hN.trans hNO, hws.later hNO,
      hshows.trans hmore, hboth, hboth.sink_eq (hshows.trans hmore) hall⟩

/-- Each of the two elements is written by `puts`, while `len` takes the first and not the second. -/
theorem map_calls_in_turn_of_two :
    ∃ place, parse mapText = ⟨[mapLet place], []⟩ ∧
      let map : Value := .function 0 ⟨[nameAt place 5 "arr", nameAt place 7 "f"], mapBody place, ⟨0⟩⟩
      let xs : List Value := [.string "ab", .integer 7]
      let program : List Stmt := [mapLet place, .expr (.array [.string "ab", .int 7])]
      let m : Machine := ⟨Store.empty.newGlobal.2.set ⟨0⟩ "map" map, 2, .unlimited, .sorted⟩
      .reached m ∈ (Traced.session 2 [program] (.new none)).1 ∧
        (∃ depth mark m', Eval.apply (eval depth) map [.array 1 xs, .builtin .puts] m =
            some (.array mark [.null, .null], m') ∧
          m'.sink.written = "ab\n7\n".toUTF8 ∧ m.Grows none m') ∧
        ∃ depth m', Eval.apply (eval depth) map [.array 1 xs, .builtin .len] m =
            some (.error (.noLength .integer), m') ∧
          m.Grows none m' := by
  obtain ⟨place, hparse⟩ := parse_mapText
  refine ⟨place, hparse, ?_⟩
  intro map xs program m
  have hm : .reached m ∈ (Traced.session 2 [program] (.new none)).1 :=
    List.mem_of_getElem? (i := 7) (by with_unfolding_all rfl)
  have hlet : Eval.statement (eval 1) ⟨0⟩ (mapLet place) (.new none) = some (map, _) := rfl
  have hg : ∀ b ∈ helpers, m.store.get? ⟨0⟩ b.name = none := by
    simp only [helpers, List.forall_mem_cons]
    exact ⟨by with_unfolding_all rfl, by with_unfolding_all rfl, by with_unfolding_all rfl, by with_unfolding_all rfl,
      nofun⟩
  have hmap : map.Every m.Made :=
    made_of_reached hm (show (m.store.bindings 0).get? "map" = some map from rfl)
  have harray : (Value.array 1 xs).Every m.Made := by
    refine Value.every_array.2 ⟨⟨fun k hk => ?_, nofun⟩, by simp [xs]⟩
    cases hk
    exact Nat.lt_succ_self 1
  have hmade (b : Builtin) : AllEvery m.Made [map, .array 1 xs, .builtin b] := by
    simp [hmap, harray, Value.every_builtin b]
  have hcalls (b : Builtin) := map_calls_in_turn none .sorted 2 [program] hm hlet hg (hmade b)
    (by simp [xs, Value.isSignal]) (by decide) rfl
  refine ⟨hm, ?_, ?_⟩
  · have hfirst : Eval.apply (eval 0) (.builtin .puts) [.string "ab"] m = some (.null, _) := rfl
    have hsecond : Eval.apply (eval 0) (.builtin .puts) [.integer 7] { m with sink := (m.sink.write "ab\n").2 } =
        some (.null, _) := rfl
    obtain ⟨N, iter, calls, mark, m', depth, -, hrun, -, -, hgrows, -, -, hws, -, -, hsink⟩ :=
      (hcalls .puts).2.1 (.cons hfirst rfl (.cons hsecond rfl .nil))
    have hresults : calls.map (·.result) = [.null, .null] := by
      generalize calls.map (·.result) = results at hws
      obtain _ | ⟨hw, hws⟩ := hws
      obtain _ | ⟨hw', hws⟩ := hws
      cases hws
      rw [hw.eq_null, hw'.eq_null]
    refine ⟨depth, mark, m', hresults ▸ hrun, ?_, hgrows⟩
    rw [hsink (Or.inl Arrangement.alike_sorted)]
    with_unfolding_all rfl
  · have hfirst : Eval.apply (eval 0) (.builtin .len) [.string "ab"] m = some (.integer 2, m) := rfl
    have hsecond : Eval.apply (eval 0) (.builtin .len) [.integer 7] m = some (.error (.noLength .integer), m) := rfl
    obtain ⟨N, iter, calls, last, m', depth, -, hrun, -, -, hgrows, -⟩ :=
      (hcalls .len).2.2 rfl (.cons hfirst rfl .nil) hsecond
    exact ⟨depth, m', hrun, hgrows⟩

end Monkey
