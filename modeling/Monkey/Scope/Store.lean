import Monkey.Value.Basic

namespace Monkey

/-- The names that one frame binds, each once. -/
abbrev Bindings := List (String × Value)

namespace Bindings

def get? (bs : Bindings) (name : String) : Option Value :=
  List.lookup name bs

def set (name : String) (v : Value) : Bindings → Bindings
  | [] => [(name, v)]
  | (other, w) :: rest => if name = other then (name, v) :: rest else (other, w) :: set name v rest

theorem get?_set (bs : Bindings) (name other : String) (v : Value) :
    get? (set name v bs) other = if other = name then some v else get? bs other := by
  induction bs with
  | nil => simp [set, get?, List.lookup_cons]; grind
  | cons b rest ih =>
    obtain ⟨key, w⟩ := b
    simp only [get?, set] at *
    grind

end Bindings

/-- What a scope binds itself, and the frame of the scope around it. -/
structure Frame where
  bindings : Bindings
  outer : Option Nat

/-- All frames that were ever made. A frame never goes away, since a function may still hold it, and the
scope around a scope is always the older one. -/
structure Store where
  frames : Array Frame
  outer_lt : ∀ (frame outer : Nat), frames[frame]?.bind (·.outer) = some outer → outer < frame

namespace Store

def empty : Store :=
  ⟨#[], by simp⟩

def bindings (s : Store) (frame : Nat) : Bindings :=
  (s.frames[frame]?.map (·.bindings)).getD []

/-- The frame of the scope around a scope. -/
def outer? (s : Store) (frame : Nat) : Option Nat :=
  s.frames[frame]?.bind (·.outer)

/-- The frames in which a name is looked for, in this order. -/
def chain (s : Store) (frame : Nat) : List Nat :=
  match h : s.outer? frame with
  | none => [frame]
  | some outer =>
    have := s.outer_lt frame outer h
    frame :: s.chain outer
termination_by frame

/-- A name means what the nearest frame that binds it says. -/
def get? (s : Store) (scope : Scope) (name : String) : Option Value :=
  (s.chain scope.frame).findSome? fun frame => (s.bindings frame).get? name

theorem chain_eq (s : Store) (frame : Nat) :
    s.chain frame = frame :: (s.outer? frame).elim [] s.chain := by
  rw [chain]
  split
  · next h =>
    rw [h]
    rfl
  · next outer h =>
    apply congrArg (frame :: ·)
    rw [h]
    rfl

theorem get?_eq (s : Store) (scope : Scope) (name : String) :
    s.get? scope name =
      ((s.bindings scope.frame).get? name).or
        ((s.outer? scope.frame).bind fun outer => s.get? ⟨outer⟩ name) := by
  rw [get?, chain_eq, List.findSome?_cons]
  cases (s.bindings scope.frame).get? name with
  | some v => rfl
  | none => cases s.outer? scope.frame <;> rfl

/-- Binds a name in the frame of the scope itself and in no other. -/
def set (s : Store) (scope : Scope) (name : String) (v : Value) : Store where
  frames := s.frames.modify scope.frame fun f => { f with bindings := f.bindings.set name v }
  outer_lt frame outer h := by
    refine s.outer_lt frame outer ?_
    rw [Array.getElem?_modify] at h
    split at h
    · rwa [Option.bind_map] at h
    · exact h

/-- Adds a frame that binds nothing yet. -/
def push (s : Store) (outer : Option Nat) (h : ∀ frame ∈ outer, frame < s.frames.size) :
    Scope × Store where
  fst := ⟨s.frames.size⟩
  snd :=
    { frames := s.frames.push ⟨[], outer⟩
      outer_lt := by
        intro frame inner hi
        rw [Array.getElem?_push] at hi
        split at hi
        · next he =>
          rw [he]
          exact h inner hi
        · exact s.outer_lt frame inner hi }

/-- A scope with nothing around it. -/
def newGlobal (s : Store) : Scope × Store :=
  s.push none (by simp)

/-- A scope inside another one of the store. -/
def newChild (s : Store) (outer : Scope) : Scope × Store :=
  s.push ((some outer.frame).filter (· < s.frames.size)) (by simp)

theorem bindings_set (s : Store) (scope : Scope) (name : String) (v : Value) (frame : Nat) :
    (s.set scope name v).bindings frame =
      if frame = scope.frame ∧ frame < s.frames.size then .set name v (s.bindings frame)
      else s.bindings frame := by
  simp only [set, bindings, Array.getElem?_modify]
  grind

/-- Binding a name changes no scope around another. -/
theorem outer?_set (s : Store) (scope : Scope) (name : String) (v : Value) (frame : Nat) :
    (s.set scope name v).outer? frame = s.outer? frame := by
  simp only [set, outer?, Array.getElem?_modify]
  split
  · rw [Option.bind_map]; rfl
  · rfl

theorem size_set (s : Store) (scope : Scope) (name : String) (v : Value) :
    (s.set scope name v).frames.size = s.frames.size :=
  Array.size_modify

section push

variable (s : Store) (outer : Option Nat) (h : ∀ frame ∈ outer, frame < s.frames.size)

theorem size_push : (s.push outer h).2.frames.size = s.frames.size + 1 :=
  Array.size_push _

/-- A new frame binds nothing, and the others stay as they are. -/
theorem bindings_push (frame : Nat) : (s.push outer h).2.bindings frame = s.bindings frame := by
  simp only [push, bindings, Array.getElem?_push]
  grind

theorem outer?_push (frame : Nat) :
    (s.push outer h).2.outer? frame = if frame = s.frames.size then outer else s.outer? frame := by
  simp only [push, outer?, Array.getElem?_push]
  grind

end push

/-- The frame that is made next binds nothing. -/
theorem bindings_size (s : Store) : s.bindings s.frames.size = [] := by
  simp [bindings]

/-- What a name means depends only on the frame it is looked up in and on the older ones. -/
theorem get?_congr {s s' : Store} {frame : Nat}
    (h : ∀ f ≤ frame, s'.bindings f = s.bindings f ∧ s'.outer? f = s.outer? f) (name : String) :
    s'.get? ⟨frame⟩ name = s.get? ⟨frame⟩ name := by
  induction frame using Nat.strongRecOn with
  | ind frame ih =>
    obtain ⟨hbindings, houter⟩ := h frame (Nat.le_refl _)
    rw [get?_eq, get?_eq, hbindings, houter]
    apply congrArg
    refine Option.bind_congr fun outer hget => ?_
    have hlt := s.outer_lt frame outer hget
    exact ih outer hlt fun f hf => h f (by omega)

theorem get?_set {s : Store} {scope : Scope} (hscope : scope.frame < s.frames.size) (name other : String)
    (v : Value) : (s.set scope name v).get? scope other = if other = name then some v else s.get? scope other := by
  have houter (outer : Nat) (hget : s.outer? scope.frame = some outer) :
      (s.set scope name v).get? ⟨outer⟩ other = s.get? ⟨outer⟩ other := by
    have hlt := s.outer_lt _ _ hget
    refine get?_congr (fun f hf => ⟨?_, outer?_set ..⟩) other
    rw [bindings_set, if_neg (by omega)]
  rw [get?_eq, get?_eq s, bindings_set, if_pos ⟨rfl, hscope⟩, outer?_set, Bindings.get?_set]
  split
  · rfl
  · exact congrArg _ (Option.bind_congr houter)

/-- A new scope finds what the scope around it finds. -/
theorem get?_newChild {s : Store} {outer : Scope} (houter : outer.frame < s.frames.size) (name : String) :
    (s.newChild outer).2.get? (s.newChild outer).1 name = s.get? outer name := by
  have hinner : (s.newChild outer).2.get? outer name = s.get? outer name := by
    refine get?_congr (fun f hf => ⟨?_, ?_⟩) name
    · rw [newChild, bindings_push]
    · rw [newChild, outer?_push, if_neg (by omega)]
  have hown : (s.newChild outer).2.bindings s.frames.size = [] := by
    rw [newChild, bindings_push, bindings_size]
  have hframe : (s.newChild outer).2.outer? s.frames.size = some outer.frame := by
    rw [newChild, outer?_push, if_pos rfl]
    simpa using houter
  have heq := (s.newChild outer).2.get?_eq ⟨s.frames.size⟩ name
  rw [hown, hframe] at heq
  exact heq.trans hinner

end Store

end Monkey
