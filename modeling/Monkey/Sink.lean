namespace Monkey

/-- What a program has written, and how many bytes may be written in all. -/
structure Sink where
  limit : Option Nat
  written : ByteArray

namespace Sink

def new (limit : Option Nat) : Sink :=
  ⟨limit, .empty⟩

def unlimited : Sink :=
  new none

def accepts (s : Sink) (size : Nat) : Prop :=
  ∀ limit ∈ s.limit, size ≤ limit - s.written.size

instance (s : Sink) (size : Nat) : Decidable (s.accepts size) :=
  inferInstanceAs (Decidable (∀ limit ∈ s.limit, _))

/-- How many bytes a limited sink still takes. -/
def room (s : Sink) : Nat :=
  s.limit.getD 0 - s.written.size

/-- Writes a text and tells whether all of it was accepted; else only its first bytes up to the limit were. -/
def write (s : Sink) (text : String) : Bool × Sink :=
  let bytes := text.toUTF8
  if s.accepts bytes.size then (true, ⟨s.limit, s.written ++ bytes⟩)
  else (false, ⟨s.limit, s.written ++ bytes.extract 0 s.room⟩)

theorem limit_write (s : Sink) (text : String) : (s.write text).2.limit = s.limit := by
  by_cases h : s.accepts text.toUTF8.size <;> simp only [write, h, if_true, if_false]

theorem written_write (s : Sink) (text : String) :
    (s.write text).2.written =
      s.written ++ if s.accepts text.toUTF8.size then text.toUTF8 else text.toUTF8.extract 0 s.room := by
  by_cases h : s.accepts text.toUTF8.size <;> simp only [write, h, if_true, if_false]

/-- Nothing is refused where nothing is written. -/
theorem accepts_zero (s : Sink) : s.accepts 0 :=
  fun _ _ => Nat.zero_le _

end Sink

end Monkey
