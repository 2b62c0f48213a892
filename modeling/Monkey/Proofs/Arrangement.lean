import Mathlib.Algebra.GroupWithZero.Nat
import Monkey.Machine

namespace Monkey

theorem utf8ByteSize_intercalate (sep : String) (texts : List String) :
    (sep.intercalate texts).utf8ByteSize =
      (texts.map (·.utf8ByteSize)).sum + (texts.length - 1) * sep.utf8ByteSize := by
  induction texts with
  | nil => simp
  | cons t texts ih =>
    cases texts with
    | nil => simp
    | cons u texts =>
      rw [String.intercalate_cons_cons, String.utf8ByteSize_append, String.utf8ByteSize_append, ih]
      simp only [List.map_cons, List.sum_cons, List.length_cons, Nat.add_sub_cancel, Nat.succ_mul]
      omega

namespace Arrangement

variable (order : Arrangement) (mark : Nat)

theorem perm_arrange (pairs : List (HashKey × String)) :
    (order.arrange mark pairs).Perm (pairs.map (·.2)) :=
  (List.mergeSort_perm pairs _).map _

/-- One pair can only be shown in one way. -/
theorem arrange_of_length_le {pairs : List (HashKey × String)} (h : pairs.length ≤ 1) :
    order.arrange mark pairs = pairs.map (·.2) := by
  match pairs, h with
  | [], _ => rw [arrange, List.mergeSort_nil]
  | [_], _ => rw [arrange, List.mergeSort_singleton]

end Arrangement

section sizes

variable (order order' : Arrangement)

mutual

/-- In which order the pairs of hashes are shown makes no difference to the length of the text. -/
theorem Value.display_size : ∀ v : Value, (v.display order).utf8ByteSize = (v.display order').utf8ByteSize
  | .integer _ | .booleanAt _ _ | .string _ | .nullAt _ | .function _ _ | .builtinAt _ _ | .error _ => by
    simp only [Value.display]
  | .array _ vs => by
    have hsizes := displayAll_sizes vs
    have hlength := congrArg List.length hsizes
    rw [List.length_map, List.length_map] at hlength
    simp only [Value.display, String.utf8ByteSize_append, utf8ByteSize_intercalate, hsizes, hlength]
  | .hash mark es => by
    have hsizes := displayEntries_sizes es
    have hperm (order : Arrangement) := (order.perm_arrange mark (displayEntries order es)).map (·.utf8ByteSize)
    have hlength (order : Arrangement) := (order.perm_arrange mark (displayEntries order es)).length_eq
    have hlengths := congrArg List.length hsizes
    rw [List.length_map, List.length_map] at hlengths
    -- an order only permutes the texts, so the sum of their sizes is what `displayEntries` has
    simp only [List.map_map, List.length_map] at hperm hlength
    simp only [Value.display, String.utf8ByteSize_append, utf8ByteSize_intercalate, (hperm _).sum_nat, hlength]
    rw [hlengths]
    exact congrArg (fun sizes : List Nat => _ + (sizes.sum + _) + _) hsizes
  | .returned v => by
    simpa only [Value.display] using v.display_size

theorem displayAll_sizes : ∀ vs : List Value,
    (displayAll order vs).map (·.utf8ByteSize) = (displayAll order' vs).map (·.utf8ByteSize)
  | [] => rfl
  | v :: vs => by
    simp only [displayAll, List.map_cons, v.display_size, displayAll_sizes vs]

theorem displayEntries_sizes : ∀ es : List (HashKey × Value × Value),
    (displayEntries order es).map (·.2.utf8ByteSize) = (displayEntries order' es).map (·.2.utf8ByteSize)
  | [] => rfl
  | (_, key, v) :: es => by
    simp only [displayEntries, List.map_cons, String.utf8ByteSize_append, key.display_size, v.display_size,
      displayEntries_sizes es]

end

theorem Value.line_size (v : Value) : (v.line order).utf8ByteSize = (v.line order').utf8ByteSize := by
  rw [line, line, String.utf8ByteSize_append, String.utf8ByteSize_append, v.display_size order order']

end sizes

theorem length_displayEntries (order : Arrangement) (es : List (HashKey × Value × Value)) :
    (displayEntries order es).length = es.length := by
  induction es with
  | nil => rfl
  | cons e es ih => exact congrArg (· + 1) ih

section small

variable (order order' : Arrangement)

mutual

/-- Where no hash with more than one pair is shown, there is only one way to do it. -/
theorem Value.display_of_small : ∀ v : Value, v.showsLargeHash = false → v.display order = v.display order'
  | .integer _, _ | .booleanAt _ _, _ | .string _, _ | .nullAt _, _ | .function _ _, _ | .builtinAt _ _, _
  | .error _, _ => by
    simp only [Value.display]
  | .array _ vs, h => by
    rw [Value.display, Value.display, displayAll_of_small vs h]
  | .hash mark es, h => by
    obtain ⟨hlength, hes⟩ := Bool.or_eq_false_iff.1 h
    have hle : (displayEntries order' es).length ≤ 1 := by
      rw [length_displayEntries]
      exact Nat.le_of_not_lt (of_decide_eq_false hlength)
    rw [Value.display, Value.display, displayEntries_of_small es hes, order.arrange_of_length_le mark hle,
      order'.arrange_of_length_le mark hle]
  | .returned v, h => by
    rw [Value.display, Value.display, v.display_of_small h]

theorem displayAll_of_small : ∀ vs : List Value, anyShowsLargeHash vs = false →
    displayAll order vs = displayAll order' vs
  | [], _ => rfl
  | v :: vs, h => by
    obtain ⟨hv, hvs⟩ := Bool.or_eq_false_iff.1 h
    rw [displayAll, displayAll, v.display_of_small hv, displayAll_of_small vs hvs]

theorem displayEntries_of_small : ∀ es : List (HashKey × Value × Value), anyEntryShowsLargeHash es = false →
    displayEntries order es = displayEntries order' es
  | [], _ => rfl
  | (_, key, v) :: es, h => by
    obtain ⟨hpair, hes⟩ := Bool.or_eq_false_iff.1 h
    obtain ⟨hkey, hv⟩ := Bool.or_eq_false_iff.1 hpair
    rw [displayEntries, displayEntries, key.display_of_small hkey, v.display_of_small hv,
      displayEntries_of_small es hes]

end

variable {order order'} in
theorem Value.line_of_small {v : Value} (h : v.showsLargeHash = false) : v.line order = v.line order' := by
  rw [line, line, v.display_of_small order order' h]

end small

namespace Sink

/-- How many more bytes a sink takes. -/
def left (s : Sink) : Option Nat :=
  s.limit.map (· - s.written.size)

/-- After texts have been written, one after the other. -/
def writeAll (s : Sink) : List String → Sink
  | [] => s
  | text :: texts => (s.write text).2.writeAll texts

theorem writeAll_append (s : Sink) (texts more : List String) :
    s.writeAll (texts ++ more) = (s.writeAll texts).writeAll more := by
  induction texts generalizing s with
  | nil => rfl
  | cons text texts ih => exact ih _

theorem accepts_iff_left (s : Sink) (size : Nat) : s.accepts size ↔ ∀ n ∈ s.left, size ≤ n := by
  simp [accepts, left]

theorem room_eq_left (s : Sink) : s.room = s.left.getD 0 := by
  unfold room left
  cases s.limit <;> simp

theorem left_written (s : Sink) (bytes : ByteArray) :
    left ⟨s.limit, s.written ++ bytes⟩ = s.left.map (· - bytes.size) := by
  unfold left
  cases s.limit <;> simp [Nat.sub_sub]

variable {s s' : Sink} (h : s.left = s'.left)
include h

/-- What becomes of a text depends on its length and on this only. -/
theorem write_of_left {text text' : String} (hsize : text.utf8ByteSize = text'.utf8ByteSize) :
    (s.write text).1 = (s'.write text').1 ∧ (s.write text).2.left = (s'.write text').2.left := by
  have hbytes : text.toUTF8.size = text'.toUTF8.size := hsize
  have haccepts : s.accepts text.toUTF8.size ↔ s'.accepts text'.toUTF8.size := by
    rw [accepts_iff_left, accepts_iff_left, h, hbytes]
  unfold write
  dsimp only
  by_cases hfits : s.accepts text.toUTF8.size
  · rw [if_pos hfits, if_pos (haccepts.1 hfits)]
    refine ⟨rfl, ?_⟩
    rw [left_written, left_written, h, hbytes]
  · rw [if_neg hfits, if_neg fun hfits' => hfits (haccepts.2 hfits')]
    refine ⟨rfl, ?_⟩
    rw [left_written, left_written, room_eq_left, room_eq_left, h, ByteArray.size_extract,
      ByteArray.size_extract, hbytes]

/-- Of the same texts as much is written. -/
theorem writeAll_of_left (texts : List String) :
    ∃ more, (s.writeAll texts).written = s.written ++ more ∧ (s'.writeAll texts).written = s'.written ++ more := by
  induction texts generalizing s s' with
  | nil => exact ⟨.empty, by simp [writeAll], by simp [writeAll]⟩
  | cons text texts ih =>
    obtain ⟨rest, hrest, hrest'⟩ := ih (write_of_left h (Eq.refl text.utf8ByteSize)).2
    -- what becomes of the first text depends on the room that is left, which is the same in both
    have hsame : (if s'.accepts text.toUTF8.size then text.toUTF8 else text.toUTF8.extract 0 s'.room) =
        if s.accepts text.toUTF8.size then text.toUTF8 else text.toUTF8.extract 0 s.room := by
      simp only [accepts_iff_left, room_eq_left, h]
    refine ⟨(if s.accepts text.toUTF8.size then text.toUTF8 else text.toUTF8.extract 0 s.room) ++ rest, ?_, ?_⟩
    · rw [writeAll, hrest, written_write, ByteArray.append_assoc]
    · rw [writeAll, hrest', written_write, hsame, ByteArray.append_assoc]

end Sink

/-- A run that leads from one machine to another shows these values, one after the other. -/
structure Machine.Shows (m n : Machine) (shown : List Value) : Prop where
  order_eq : n.order = m.order
  sink_eq : n.sink = m.sink.writeAll (shown.map (·.line m.order))

namespace Machine.Shows

variable {m m' n n' o : Machine} {shown shown' more : List Value}

theorem nil (horder : n.order = m.order) (hsink : n.sink = m.sink) : m.Shows n [] :=
  ⟨horder, hsink⟩

theorem trans (h : m.Shows n shown) (h' : n.Shows o more) : m.Shows o (shown ++ more) where
  order_eq := h'.order_eq.trans h.order_eq
  sink_eq := by rw [h'.sink_eq, h.sink_eq, h.order_eq, List.map_append, Sink.writeAll_append]

/-- The same is written where the same lines are shown. -/
theorem written_eq (h : m.Shows n shown) (h' : m'.Shows n' shown') (hleft : m.sink.left = m'.sink.left)
    (hlines : shown.map (·.line m.order) = shown'.map (·.line m'.order)) :
    ∃ output, n.sink.written = m.sink.written ++ output ∧ n'.sink.written = m'.sink.written ++ output := by
  rw [h.sink_eq, h'.sink_eq, hlines]
  exact Sink.writeAll_of_left hleft _

end Machine.Shows

end Monkey
