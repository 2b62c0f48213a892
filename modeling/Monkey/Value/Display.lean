import Monkey.Program.Render
import Monkey.Value.Basic

namespace Monkey

/-- Where the hash with this mark shows the pair with this key. What has a smaller number comes first, and what has
the same number in the order of the keys. Each hash may have an order of its own, which no program decides. -/
abbrev Arrangement := Nat → HashKey → Nat

namespace Arrangement

/-- All hashes show their pairs in the order of the keys. -/
def sorted : Arrangement :=
  fun _ _ => 0

/-- The texts of the pairs of one hash, in the order in which it shows them. -/
def arrange (order : Arrangement) (mark : Nat) (pairs : List (HashKey × String)) : List String :=
  (pairs.mergeSort fun p q => order mark p.1 ≤ order mark q.1).map (·.2)

/-- Hashes with the same keys show their pairs in one order, whichever of the two arrangements each of them follows. -/
def Alike (order order' : Arrangement) : Prop :=
  ∀ mark mark', order mark = order' mark'

theorem alike_sorted : sorted.Alike sorted :=
  fun _ _ => rfl

theorem Alike.right {order order' : Arrangement} (h : order.Alike order') : order'.Alike order' :=
  fun mark mark' => (h 0 mark).symm.trans (h 0 mark')

theorem Alike.arrange_eq {order order' : Arrangement} (h : order.Alike order') (mark mark' : Nat)
    (pairs : List (HashKey × String)) : order.arrange mark pairs = order'.arrange mark' pairs := by
  unfold arrange
  rw [h mark mark']

theorem arrange_sorted (mark : Nat) (pairs : List (HashKey × String)) :
    sorted.arrange mark pairs = pairs.map (·.2) := by
  rw [arrange, List.mergeSort_of_pairwise]
  exact List.pairwise_of_forall fun _ _ => rfl

end Arrangement

mutual

/-- The text that shows a value. -/
def Value.display (order : Arrangement) : Value → String
  | .integer n => Text.decimal n.toInt
  | .booleanAt _ b => if b then "true" else "false"
  | .string s => s
  | .nullAt _ => "null"
  | .array _ elements => "[" ++ ", ".intercalate (displayAll order elements) ++ "]"
  | .hash mark entries =>
    "\x7b" ++ ", ".intercalate (order.arrange mark (displayEntries order entries)) ++ "\x7d"
  | .function _ c =>
    "fn(" ++ ", ".intercalate (c.params.map (·.name)) ++ ") \x7b\n" ++ renderStmts c.body ++ "\n\x7d"
  | .builtinAt _ _ => "builtin function"
  | .error e => "Error: " ++ e.message
  | .returned v => v.display order

def displayAll (order : Arrangement) : List Value → List String
  | [] => []
  | v :: vs => v.display order :: displayAll order vs

def displayEntries (order : Arrangement) : List (HashKey × Value × Value) → List (HashKey × String)
  | [] => []
  | (k, key, value) :: rest =>
    (k, key.display order ++ ": " ++ value.display order) :: displayEntries order rest

end

/-- A value on a line of its own. -/
def Value.line (order : Arrangement) (v : Value) : String :=
  v.display order ++ "\n"

mutual

/-- Whether the text of a value contains that of a hash with more than one pair. -/
def Value.showsLargeHash : Value → Bool
  | .array _ elements => anyShowsLargeHash elements
  | .hash _ entries => 1 < entries.length || anyEntryShowsLargeHash entries
  | .returned v => v.showsLargeHash
  | _ => false

def anyShowsLargeHash : List Value → Bool
  | [] => false
  | v :: vs => v.showsLargeHash || anyShowsLargeHash vs

def anyEntryShowsLargeHash : List (HashKey × Value × Value) → Bool
  | [] => false
  | (_, key, value) :: rest => key.showsLargeHash || value.showsLargeHash || anyEntryShowsLargeHash rest

end

end Monkey
