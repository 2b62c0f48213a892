import Mathlib.Data.List.Induction
import Monkey.Scope.Store

namespace Monkey

/-- What can be done to scopes. -/
inductive Operation
  | newGlobal
  | newChild (outer : Scope)
  | set (scope : Scope) (name : String) (v : Value)
  | get (scope : Scope) (name : String)

/-- What an operation gives: a scope that it made, the value that it bound, or what it found. -/
inductive Answer
  | made (scope : Scope)
  | bound (v : Value)
  | found (v? : Option Value)

def Store.perform (s : Store) : Operation → Answer × Store
  | .newGlobal => (.made s.newGlobal.1, s.newGlobal.2)
  | .newChild outer => (.made (s.newChild outer).1, (s.newChild outer).2)
  | .set scope name v => (.bound v, s.set scope name v)
  | .get scope name => (.found (s.get? scope name), s)

def Store.performAll (s : Store) : List Operation → List Answer × Store
  | [] => ([], s)
  | op :: ops =>
    let (answer, s') := s.perform op
    let (answers, s'') := s'.performAll ops
    (answer :: answers, s'')

/-- All that was done to scopes, beginning when there were none. -/
abbrev History := List Operation

namespace History

def answers (h : History) : List Answer :=
  (Store.empty.performAll h).1

/-- The store that is left. -/
def store (h : History) : Store :=
  (Store.empty.performAll h).2

-- What follows reads off the history alone what scopes there are and what they bind

/-- One entry for each scope that was made, in this order: the frame of the scope around it. -/
def outers (h : History) : List (Option Nat) :=
  h.filterMap fun
    | .newGlobal => some none
    | .newChild outer => some (some outer.frame)
    | _ => none

/-- The value that a name was last given in the scope with this frame. -/
def latest? (h : History) (frame : Nat) (name : String) : Option Value :=
  h.reverse.findSome? fun
    | .set scope other v => if scope.frame = frame ∧ other = name then some v else none
    | _ => none

/-- From the scope outwards, the nearest one that was ever given the name was last given this value. If there
is no such scope, nothing is found. -/
inductive Finds (h : History) (name : String) : Nat → Option Value → Prop
  | own {f : Nat} {v : Value} : h.latest? f name = some v → Finds h name f (some v)
  | outward {f g : Nat} {r : Option Value} :
    h.latest? f name = none → h.outers[f]? = some (some g) → Finds h name g r → Finds h name f r
  | nowhere {f : Nat} : h.latest? f name = none → h.outers[f]? = some none → Finds h name f none

/-- The second scope is the first one or around it, and none from the first one up to it, itself left out, was
ever given the name. -/
inductive Sees (h : History) (name : String) : Nat → Nat → Prop
  | own {f : Nat} : Sees h name f f
  | outward {f g target : Nat} :
    h.latest? f name = none → h.outers[f]? = some (some g) → Sees h name g target → Sees h name f target

/-- What an operation has to give after all that was done before. -/
def Answers (h : History) : Operation → Answer → Prop
  | .newGlobal, .made scope | .newChild _, .made scope => scope.frame = h.outers.length
  | .set _ _ v, .bound w => w = v
  | .get scope name, .found v? => h.Finds name scope.frame v?
  | _, _ => False

end History

/-- The operation is on a scope that was made before, where `made` is the number of these. -/
def Operation.IsOn (made : Nat) : Operation → Prop
  | newGlobal => True
  | newChild scope | set scope _ _ | get scope _ => scope.frame < made

namespace History

inductive Valid : History → Prop
  | nil : Valid []
  | concat {h : History} {op : Operation} : Valid h → op.IsOn h.outers.length → Valid (h ++ [op])

section extension

variable (h : History) (op : Operation)

theorem performAll_append (s : Store) (ops more : List Operation) :
    s.performAll (ops ++ more) =
      ((s.performAll ops).1 ++ ((s.performAll ops).2.performAll more).1,
        ((s.performAll ops).2.performAll more).2) := by
  induction ops generalizing s with
  | nil => rfl
  | cons op ops ih => simp only [List.cons_append, Store.performAll, ih]

theorem store_concat : (h ++ [op]).store = (h.store.perform op).2 := by
  rw [store, performAll_append]
  rfl

theorem answers_concat : (h ++ [op]).answers = h.answers ++ [(h.store.perform op).1] := by
  rw [answers, performAll_append]
  rfl

theorem length_answers : h.answers.length = h.length := by
  induction h using List.reverseRecOn with
  | nil => rfl
  | append_singleton h op ih => rw [answers_concat, List.length_append, List.length_append, ih]; rfl

theorem outers_append (h' : History) : (h ++ h').outers = h.outers ++ h'.outers :=
  List.filterMap_append ..

theorem latest?_append (h' : History) (f : Nat) (name : String) :
    (h ++ h').latest? f name = (h'.latest? f name).or (h.latest? f name) := by
  rw [latest?, List.reverse_append, List.findSome?_append]
  rfl

end extension

theorem valid_concat_iff {h : History} {op : Operation} :
    Valid (h ++ [op]) ↔ h.Valid ∧ op.IsOn h.outers.length := by
  refine ⟨fun hvalid => ?_, fun ⟨hvalid, hop⟩ => .concat hvalid hop⟩
  generalize hwhole : h ++ [op] = whole at hvalid
  cases hvalid with
  | nil => exact absurd hwhole (List.append_ne_nil_of_right_ne_nil h (List.cons_ne_nil op []))
  | concat hvalid hop =>
    obtain ⟨rfl, hlast⟩ := List.append_inj' hwhole rfl
    obtain rfl := List.singleton_inj.1 hlast
    exact ⟨hvalid, hop⟩

theorem Valid.of_append {h : History} (more : List Operation) (hvalid : Valid (h ++ more)) : h.Valid := by
  induction more using List.reverseRecOn with
  | nil => rwa [List.append_nil] at hvalid
  | append_singleton more op ih =>
    rw [← List.append_assoc] at hvalid
    exact ih (valid_concat_iff.1 hvalid).1

theorem outers_concat_of_not_made {h : History} {op : Operation} (hop : History.outers [op] = []) :
    (h ++ [op]).outers = h.outers := by
  rw [outers_append, hop, List.append_nil]

/-- The store holds what the history says: as many frames as scopes were made, each in its place, and in each
frame the names with the values that they were last given. -/
structure Leaves (h : History) (s : Store) : Prop where
  size_eq : s.frames.size = h.outers.length
  outer_eq : ∀ f, s.outer? f = h.outers[f]?.join
  get?_eq : ∀ f name, (s.bindings f).get? name = h.latest? f name

namespace Leaves

variable {h : History} {s : Store} (hs : h.Leaves s)
include hs

theorem push {op : Operation} {outer : Option Nat} (hlt : ∀ f ∈ outer, f < s.frames.size)
    (houters : History.outers [op] = [outer]) (hlatest : ∀ f name, History.latest? [op] f name = none) :
    History.Leaves (h ++ [op]) (s.push outer hlt).2 where
  size_eq := by
    rw [Store.size_push, outers_append, houters, List.length_append, hs.size_eq]
    rfl
  outer_eq f := by
    rw [Store.outer?_push, outers_append, houters, hs.size_eq]
    split
    · next hf => rw [hf, List.getElem?_concat_length]; rfl
    · next hf =>
      rcases Nat.lt_or_gt_of_ne hf with hlt | hgt
      · rw [List.getElem?_append_left hlt, hs.outer_eq]
      · rw [hs.outer_eq, List.getElem?_eq_none (Nat.le_of_lt hgt), List.getElem?_eq_none]
        rw [List.length_append]
        exact hgt
  get?_eq f name := by
    rw [Store.bindings_push, latest?_append, hlatest, Option.none_or, hs.get?_eq]

theorem set {scope : Scope} (hscope : scope.frame < h.outers.length) (name : String) (v : Value) :
    History.Leaves (h ++ [.set scope name v]) (s.set scope name v) where
  size_eq := by
    rw [Store.size_set, outers_concat_of_not_made rfl, hs.size_eq]
  outer_eq f := by
    rw [Store.outer?_set, outers_concat_of_not_made rfl, hs.outer_eq]
  get?_eq f other := by
    have hlatest : History.latest? [.set scope name v] f other =
        if scope.frame = f ∧ name = other then some v else none := by
      simp [latest?]
    rw [Store.bindings_set, latest?_append, hlatest, hs.size_eq, ← hs.get?_eq]
    by_cases hf : f = scope.frame
    · rw [if_pos ⟨hf, hf ▸ hscope⟩, Bindings.get?_set]
      by_cases hname : other = name
      · rw [if_pos hname, if_pos ⟨hf.symm, hname.symm⟩, Option.some_or]
      · rw [if_neg hname, if_neg fun hboth => hname hboth.2.symm, Option.none_or]
    · rw [if_neg fun hboth => hf hboth.1, if_neg fun hboth => hf hboth.1.symm, Option.none_or]

theorem get (scope : Scope) (name : String) : History.Leaves (h ++ [.get scope name]) s where
  size_eq := by
    rw [outers_concat_of_not_made rfl, hs.size_eq]
  outer_eq f := by
    rw [outers_concat_of_not_made rfl, hs.outer_eq]
  get?_eq f other := by
    rw [latest?_append, hs.get?_eq]
    rfl

/-- One operation. -/
theorem perform {op : Operation} (hop : op.IsOn h.outers.length) :
    History.Leaves (h ++ [op]) (s.perform op).2 := by
  cases op with
  | newGlobal => exact hs.push (by simp) rfl fun _ _ => rfl
  | newChild outer =>
    refine hs.push (by simp) ?_ fun _ _ => rfl
    have hmade : outer.frame < s.frames.size := hs.size_eq ▸ hop
    rw [Option.filter_some, if_pos (decide_eq_true hmade)]
    rfl
  | set scope name v => exact hs.set hop name v
  | get scope name => exact hs.get scope name

end Leaves

/-- Any number of operations. -/
theorem Valid.leaves {h : History} (hvalid : h.Valid) : h.Leaves h.store := by
  induction hvalid with
  | nil =>
    refine ⟨rfl, fun f => ?_, fun f name => ?_⟩
    · simp [store, Store.performAll, Store.empty, Store.outer?, outers]
    · simp [store, Store.performAll, Store.empty, Store.bindings, Bindings.get?, latest?]
  | concat _ hop ih =>
    rw [store_concat]
    exact ih.perform hop

/-- Every scope is younger than the scope around it. -/
theorem Valid.outer_lt {h : History} (hvalid : h.Valid) {f g : Nat} (hf : h.outers[f]? = some (some g)) :
    g < f := by
  induction hvalid with
  | nil => exact nomatch hf
  | @concat h op hvalid hop ih =>
    rw [outers_append] at hf
    by_cases hlt : f < h.outers.length
    · rw [List.getElem?_append_left hlt] at hf
      exact ih hf
    · have hle := Nat.le_of_not_lt hlt
      rw [List.getElem?_append_right hle] at hf
      cases op with
      | newGlobal | set scope name v | get scope name => simp [outers, List.getElem?_singleton] at hf
      | newChild outer =>
        have hmem : some g ∈ [some outer.frame] := List.mem_of_getElem? hf
        rw [Option.some_inj.1 (List.mem_singleton.1 hmem)]
        exact Nat.lt_of_lt_of_le hop hle

section lookup

variable {h : History} {name : String}

/-- What a look-up in the store gives is what is to be found. -/
theorem Leaves.finds {s : Store} (hs : h.Leaves s) (name : String) (f : Nat) (hf : f < h.outers.length) :
    h.Finds name f (s.get? ⟨f⟩ name) := by
  induction f using Nat.strongRecOn with
  | ind f ih =>
    rw [Store.get?_eq, hs.get?_eq, hs.outer_eq]
    cases hlatest : h.latest? f name with
    | some v => exact .own hlatest
    | none =>
      rw [Option.none_or]
      have houter : h.outers[f]? = some h.outers[f] := List.getElem?_eq_getElem hf
      rw [houter]
      cases hg : h.outers[f] with
      | none => exact .nowhere hlatest (houter.trans (congrArg some hg))
      | some g =>
        rw [hg] at houter
        have hlt : g < f := s.outer_lt f g (by rw [← Store.outer?, hs.outer_eq, houter]; rfl)
        exact .outward hlatest houter (ih g hlt (Nat.lt_trans hlt hf))

theorem Finds.unique {f : Nat} {r r' : Option Value} (hr : h.Finds name f r) (hr' : h.Finds name f r') :
    r = r' := by
  induction hr with
  | own hv =>
    cases hr' with
    | own hv' => rw [← hv, hv']
    | outward hnone | nowhere hnone => rw [hv] at hnone; exact nomatch hnone
  | outward hnone hg _ ih =>
    cases hr' with
    | own hv => rw [hnone] at hv; exact nomatch hv
    | outward _ hg' hr' =>
      rw [hg] at hg'
      cases hg'
      exact ih hr'
    | nowhere _ hg' => rw [hg] at hg'; exact nomatch hg'
  | nowhere hnone hg =>
    cases hr' with
    | own hv => rw [hnone] at hv; exact nomatch hv
    | outward _ hg' => rw [hg] at hg'; exact nomatch hg'
    | nowhere => rfl

theorem Valid.finds {h : History} (hvalid : h.Valid) (name : String) {f : Nat} (hf : f < h.outers.length) :
    ∃! r, h.Finds name f r :=
  ⟨_, hvalid.leaves.finds name f hf, fun _ hr => hr.unique (hvalid.leaves.finds name f hf)⟩

/-- What is bound in a scope is found from all scopes that see it. -/
theorem Sees.finds {f target : Nat} {v : Value} (hsees : h.Sees name f target)
    (hv : h.latest? target name = some v) : h.Finds name f (some v) := by
  induction hsees with
  | own => exact .own hv
  | outward hnone hg _ ih => exact .outward hnone hg (ih hv)

/-- Only the scopes that are looked at matter for what is found. -/
theorem Finds.congr {h' : History} {p : Nat → Prop} (houters : h'.outers = h.outers)
    (hp : ∀ f g, p f → h.latest? f name = none → h.outers[f]? = some (some g) → p g)
    (hlatest : ∀ f, p f → h'.latest? f name = h.latest? f name) {f : Nat} {r : Option Value} (hf : p f)
    (hr : h.Finds name f r) : h'.Finds name f r := by
  induction hr with
  | own hv => exact .own ((hlatest _ hf).trans hv)
  | outward hnone hg _ ih =>
    exact .outward ((hlatest _ hf).trans hnone) (houters ▸ hg) (ih (hp _ _ hf hnone hg))
  | nowhere hnone hg => exact .nowhere ((hlatest _ hf).trans hnone) (houters ▸ hg)

end lookup

section binding

variable (before after : History) (scope : Scope) (name : String) (v : Value)

/-- Everything that was done, with one binding among it. -/
def binding : History :=
  before ++ .set scope name v :: after

theorem outers_binding : (binding before after scope name v).outers = History.outers (before ++ after) := by
  rw [binding, outers_append, ← List.singleton_append, outers_append, outers_append]
  rfl

theorem latest?_binding (f : Nat) (other : String) :
    (binding before after scope name v).latest? f other =
      (after.latest? f other).or
        ((if scope.frame = f ∧ name = other then some v else none).or (before.latest? f other)) := by
  have hset : History.latest? [.set scope name v] f other =
      if scope.frame = f ∧ name = other then some v else none := by
    simp [latest?]
  rw [binding, latest?_append, ← List.singleton_append, latest?_append, hset, Option.or_assoc]

/-- From a scope that does not see it, nothing of a binding is found. -/
theorem finds_binding_iff {f : Nat} {other : String} {r : Option Value}
    (hsees : other = name → ¬ (binding before after scope name v).Sees name f scope.frame) :
    (binding before after scope name v).Finds other f r ↔ History.Finds (before ++ after) other f r := by
  let p (f : Nat) : Prop := other = name → ¬ (binding before after scope name v).Sees name f scope.frame
  have houters := outers_binding before after scope name v
  have hlatest (f : Nat) (hf : p f) :
      (binding before after scope name v).latest? f other = History.latest? (before ++ after) f other := by
    have hother : ¬ (scope.frame = f ∧ name = other) := by
      rintro ⟨rfl, rfl⟩
      exact hf rfl .own
    rw [latest?_binding, if_neg hother, Option.none_or, latest?_append]
  have hp (f g : Nat) (hf : p f) (hnone : (binding before after scope name v).latest? f other = none)
      (hg : (binding before after scope name v).outers[f]? = some (some g)) : p g := by
    rintro rfl hin
    exact hf rfl (.outward hnone hg hin)
  constructor
  · exact Finds.congr houters.symm hp (fun f hf => (hlatest f hf).symm) hsees
  · refine Finds.congr houters (fun f g hf hnone hg => ?_) hlatest hsees
    exact hp f g hf ((hlatest f hf).trans hnone) (houters ▸ hg)

end binding

/-- What every operation of the history gave is right by what was done before it. -/
theorem Valid.answers {before after : History} {op : Operation} (hvalid : Valid (before ++ op :: after)) :
    ∃ answer, (History.answers (before ++ op :: after))[before.length]? = some answer ∧
      before.Answers op answer := by
  have hconcat : Valid (before ++ [op]) := by
    refine Valid.of_append after ?_
    rwa [List.append_assoc]
  obtain ⟨hbefore, hop⟩ := valid_concat_iff.1 hconcat
  refine ⟨(before.store.perform op).1, ?_, ?_⟩
  · have hanswers : History.answers (before ++ op :: after) = before.answers ++
        (before.store.perform op).1 :: ((before.store.perform op).2.performAll after).1 :=
      congrArg Prod.fst (performAll_append .empty before (op :: after))
    rw [hanswers, ← before.length_answers, List.getElem?_append_right (Nat.le_refl _), Nat.sub_self]
    rfl
  · cases op with
    | newGlobal | newChild outer => exact hbefore.leaves.size_eq
    | set scope name v => rfl
    | get scope name => exact hbefore.leaves.finds name scope.frame hop

/-- Look-up is lexical: what is found depends on the history as the scopes stand inside each other. -/
structure Lexical (h : History) : Prop where
  leaves : h.Leaves h.store
  outer_lt : ∀ f g : Nat, h.outers[f]? = some (some g) → g < f
  finds : ∀ name f, f < h.outers.length → ∃! r, h.Finds name f r
  get_finds : ∀ name f, f < h.outers.length → h.Finds name f (h.store.get? ⟨f⟩ name)
  answers : ∀ (before : History) op after, h = before ++ op :: after →
    ∃ answer, h.answers[before.length]? = some answer ∧ before.Answers op answer
  /-- A binding is found from all scopes that see it, until the name is bound there again. -/
  seen : ∀ before scope name v after, h = before ++ .set scope name v :: after →
    History.latest? after scope.frame name = none →
      ∀ f, h.Sees name f scope.frame → h.Finds name f (some v)
  /-- From any other scope, everything is found as if there were no such binding. -/
  unseen : ∀ before scope name v after, h = before ++ .set scope name v :: after →
    ∀ f other, (other = name → ¬ h.Sees name f scope.frame) →
      ∀ r, h.Finds other f r ↔ History.Finds (before ++ after) other f r

theorem Valid.lexical {h : History} (hvalid : h.Valid) : h.Lexical where
  leaves := hvalid.leaves
  outer_lt _ _ := hvalid.outer_lt
  finds name f := hvalid.finds name
  get_finds name f := hvalid.leaves.finds name f
  answers := by
    rintro before op after rfl
    exact hvalid.answers
  seen := by
    rintro before scope name v after rfl hafter f hsees
    refine hsees.finds ((latest?_binding before after scope name v scope.frame name).trans ?_)
    rw [hafter, Option.none_or, if_pos ⟨rfl, rfl⟩, Option.some_or]
  unseen := by
    rintro before scope name v after rfl f other hsees r
    exact finds_binding_iff before after scope name v hsees

end History

end Monkey
