import Monkey.Proofs.Faults
import Monkey.Proofs.Partition
import Monkey.Proofs.Recognition

namespace Monkey

/-- Blanks in place of the characters, where lines stay as they are. -/
def Text.blankOut (cs : List Char) : List Char :=
  cs.map fun c => if c = '\n' then c else ' '

/-- What takes the place of the characters of a lexeme: a token stays, and all else is made blank. -/
def Lexeme.cleared (stretch : List Char) : Lexeme → List Char
  | token _ _ => stretch
  | stray _ | unterminated => Text.blankOut stretch

theorem Cursor.length_lt_of_skipGap {c : Cursor} {ch : Char} {rest : List Char}
    (h : c.skipGap.rest = ch :: rest) (n : Nat) : (c.skipGap.drop (n + 1)).rest.length < c.rest.length := by
  have hle : c.skipGap.rest.length ≤ c.rest.length := c.length_skipGap_le
  rw [rest_drop, h, List.drop_succ_cons, List.length_drop]
  rw [h, List.length_cons] at hle
  omega

/-- The text that is left, with blanks for all characters that are scanned into no token: those that begin
none, and those of a string without an end. -/
def Cursor.cleared (c : Cursor) : List Char :=
  let start := c.skipGap
  let gap := c.rest.take (c.rest.length - start.rest.length)
  match h : start.rest with
  | [] => gap
  | ch :: rest =>
    let (lexeme, n) := Lexeme.read ch rest
    have := length_lt_of_skipGap h n
    gap ++ (lexeme.cleared (ch :: rest.take n) ++ (start.drop (n + 1)).cleared)
termination_by c.rest.length

/-- A source with blanks for all that is scanned into no token. -/
def clearedOf (source : String) : String :=
  .ofList (Cursor.ofText source).cleared

/-- The second text begins like the first one, or with a blank. -/
def Eases (cs cs' : List Char) : Prop :=
  ∀ d ∈ cs'.head?, d ∈ cs.head? ∨ d = ' '

theorem Eases.append {cs cs' : List Char} (h : Eases cs cs') (front : List Char) :
    Eases (front ++ cs) (front ++ cs') := by
  cases front with
  | nil => exact h
  | cons c front => exact fun d hd => .inl hd

/-- What holds of a blank and of how a text begins holds of how the other one begins. -/
theorem Eases.head {cs cs' : List Char} (h : Eases cs cs') {p : Char → Prop} (hp : ∀ d ∈ cs.head?, p d)
    (hblank : p ' ') : ∀ d ∈ cs'.head?, p d := by
  intro d hd
  rcases h d hd with hd | rfl
  · exact hp d hd
  · exact hblank

namespace Gap

/-- What leads from `cs` to `rest` is passed over whatever comes after it. A comment has an end of its own, so
this holds only if something is left. -/
def Keeps (g : Gap) (cs rest : List Char) : Prop :=
  rest = [] ∨ ∃ gap, cs = gap ++ rest ∧ (g ≠ blank → gap ≠ []) ∧
    ∀ more q, skip g (gap ++ more) q = skip blank more (q.afterAll gap)

theorem Keeps.past {g g' : Gap} {cs rest : List Char} (front : List Char) (h : g.Keeps cs rest)
    (hfront : front ≠ []) (hskip : ∀ gap more q, cs = gap ++ rest → (g ≠ blank → gap ≠ []) →
      skip g' (front ++ (gap ++ more)) q = skip g (gap ++ more) (q.afterAll front)) :
    g'.Keeps (front ++ cs) rest := by
  rcases h with h | ⟨gap, hcs, hgap, hkeeps⟩
  · exact .inl h
  · refine .inr ⟨front ++ gap, ?_, fun _ => ?_, fun more q => ?_⟩
    · rw [hcs, List.append_assoc]
    · exact List.append_ne_nil_of_left_ne_nil hfront gap
    · rw [List.append_assoc, hskip gap more q hcs hgap, hkeeps, Position.afterAll_append]

theorem skip_keeps (g : Gap) (cs : List Char) (p : Position) : g.Keeps cs (skip g cs p).rest := by
  fun_induction skip g cs p with
  | case1 => exact .inl rfl
  | case2 cs p ih => exact ih.past ['/', '/'] (List.cons_ne_nil _ _) fun _ _ _ _ _ => rfl
  | case3 cs p ih => exact ih.past ['/', '*'] (List.cons_ne_nil _ _) fun _ _ _ _ _ => rfl
  | case4 c cs p _ _ hc ih =>
    exact ih.past [c] (List.cons_ne_nil _ _) fun gap more q _ _ => skip_of_blank hc (gap ++ more) q
  | case5 c cs p => exact .inr ⟨[], rfl, fun h => absurd rfl h, fun _ _ => rfl⟩
  | case6 c cs p ih =>
    refine ih.past [c] (List.cons_ne_nil _ _) fun gap more q _ _ => ?_
    rw [List.singleton_append, skip]
    rfl
  | case7 n cs p ih => exact ih.past ['/', '*'] (List.cons_ne_nil _ _) fun _ _ _ _ _ => rfl
  | case8 cs p ih => exact ih.past ['*', '/'] (List.cons_ne_nil _ _) fun _ _ _ _ _ => rfl
  | case9 n cs p ih => exact ih.past ['*', '/'] (List.cons_ne_nil _ _) fun _ _ _ _ _ => rfl
  | case10 n c cs p hopening hlast hclosing ih =>
    refine ih.past [c] (List.cons_ne_nil _ _) fun gap more q hcs hgap => ?_
    obtain ⟨d, gap, rfl⟩ := List.exists_cons_of_ne_nil (hgap (by simp))
    -- no mark begins with the character, since the next one stays the same
    rw [List.singleton_append, List.cons_append, skip]
    · rfl
    · rintro tail rfl hd
      exact hopening _ rfl (by rw [hcs, (List.cons.inj hd).1]; rfl)
    · rintro tail rfl rfl hd
      exact hlast _ rfl rfl (by rw [hcs, (List.cons.inj hd).1]; rfl)
    · rintro m tail rfl rfl hd
      exact hclosing m _ rfl rfl (by rw [hcs, (List.cons.inj hd).1]; rfl)

/-- After a gap comes what is neither blank nor the beginning of a comment. -/
theorem front_of_skip {g : Gap} {cs rest : List Char} {p : Position} {ch : Char}
    (h : (skip g cs p).rest = ch :: rest) :
    Text.isBlank ch = false ∧ (ch = '/' → rest.head? ≠ some '/' ∧ rest.head? ≠ some '*') := by
  fun_induction skip g cs p with
  | case1 => exact absurd h.symm (List.cons_ne_nil _ _)
  | case5 c cs p hline hblock hc =>
    obtain ⟨rfl, rfl⟩ := List.cons.inj h
    refine ⟨Bool.eq_false_iff.2 hc, fun hslash => ⟨fun hhead => ?_, fun hhead => ?_⟩⟩
    · obtain ⟨tail, rfl⟩ := List.head?_eq_some_iff.1 hhead
      exact hline tail hslash rfl
    · obtain ⟨tail, rfl⟩ := List.head?_eq_some_iff.1 hhead
      exact hblock tail hslash rfl
  | case2 | case3 | case4 | case6 | case7 | case8 | case9 | case10 => simp_all

end Gap

section reading

variable {ch : Char} {front rest rest' : List Char}

/-- Nothing of the rest belongs to a symbol, so it need not be the same rest. -/
theorem Kind.ofSymbol?_eases {kind : Kind} (h : ofSymbol? ch (front ++ rest) = some (kind, front.length))
    (hrest : Eases rest rest') : ofSymbol? ch (front ++ rest') = some (kind, front.length) := by
  cases front with
  | cons d front => exact h
  | nil =>
    rw [List.nil_append, List.length_nil] at h ⊢
    have hkeep : rest'.head? = some '=' → rest.head? = some '=' := by
      intro hhead
      rcases hrest '=' hhead with hmem | hblank
      · exact hmem
      · exact absurd hblank (by decide)
    unfold ofSymbol? at h ⊢
    split at h
    · exact nomatch h
    next hequal =>
    split at h
    · exact nomatch h
    next hnotEqual =>
    rw [if_neg fun hand => hequal ⟨hkeep hand.1, hand.2⟩, if_neg fun hand => hnotEqual ⟨hkeep hand.1, hand.2⟩]
    exact h

theorem takeWhile_eases {p : Char → Bool} (h : ((front ++ rest).takeWhile p).length = front.length)
    (hrest : Eases rest rest') (hblank : p ' ' = false) :
    (front ++ rest').takeWhile p = (front ++ rest).takeWhile p := by
  obtain ⟨more, tail, hsplit, hmore, hall, htail⟩ := exists_takeWhile p (front ++ rest)
  rw [hmore] at h ⊢
  obtain ⟨rfl, rfl⟩ := List.append_inj hsplit h.symm
  exact takeWhile_append_eq hall (hrest.head htail hblank)

/-- The characters end before the first text does, so the second one does not matter. -/
theorem takeWhile_eq_of_lt {p : Char → Bool} (h : ((front ++ rest).takeWhile p).length < front.length)
    (rest' : List Char) : (front ++ rest').takeWhile p = (front ++ rest).takeWhile p := by
  rw [List.takeWhile_append] at h
  rw [List.takeWhile_append, List.takeWhile_append]
  split at h
  · rw [List.length_append] at h
    omega
  · next hfront => rw [if_neg hfront, if_neg hfront]

/-- A token is read in the same way if what comes after it begins as before or with a blank. -/
theorem Lexeme.read_eases {kind : Kind} {text : List Char}
    (h : read ch (front ++ rest) = (token kind text, front.length)) (hrest : Eases rest rest') :
    read ch (front ++ rest') = (token kind text, front.length) := by
  rw [read] at h ⊢
  split at h
  · next hquote =>
    rw [if_pos hquote]
    dsimp only at h ⊢
    split at h
    · have hlt : ((front ++ rest).takeWhile (· ≠ '"')).length < front.length :=
        Nat.lt_of_succ_le (Nat.le_of_eq (Prod.mk.inj h).2)
      rw [takeWhile_eq_of_lt hlt, if_pos (Nat.lt_of_lt_of_le hlt (by simp))]
      exact h
    · cases (Prod.mk.inj h).1
  next hquote =>
  rw [if_neg hquote]
  split at h
  · next hdigit =>
    rw [if_pos hdigit, takeWhile_eases (Prod.mk.inj h).2 hrest (by decide)]
    exact h
  next hdigit =>
  rw [if_neg hdigit]
  split at h
  · next hletter =>
    rw [if_pos hletter, takeWhile_eases (Prod.mk.inj h).2 hrest (by decide)]
    exact h
  next hletter =>
  rw [if_neg hletter]
  split at h
  · next k n hsymbol =>
    obtain ⟨hlexeme, rfl⟩ := Prod.mk.inj h
    rw [Kind.ofSymbol?_eases hsymbol hrest, ← hlexeme]
    dsimp only
    rw [List.take_left, List.take_left]
  · cases (Prod.mk.inj h).1

end reading

namespace Cursor

theorem drop_append (front cs : List Char) (p : Position) :
    drop front.length ⟨front ++ cs, p⟩ = ⟨cs, p.afterAll front⟩ := by
  induction front generalizing p with
  | nil => rfl
  | cons c front ih => exact ih (p.after c)

/-- A gap and what it leads to, which stays a gap if something else comes there. -/
theorem skipGap_cases (c : Cursor) :
    c.skipGap.rest = [] ∨
      ∃ gap ch rest, c = ⟨gap ++ ch :: rest, c.position⟩ ∧
        c.skipGap = ⟨ch :: rest, c.position.afterAll gap⟩ ∧ Text.isBlank ch = false ∧
        (ch = '/' → rest.head? ≠ some '/' ∧ rest.head? ≠ some '*') ∧
        ∀ more q, skipGap ⟨gap ++ more, q⟩ = skipGap ⟨more, q.afterAll gap⟩ := by
  rcases Gap.skip_keeps .blank c.rest c.position with hnil | ⟨gap, hgap, -, hkeeps⟩
  · exact .inl hnil
  · cases hrest : c.skipGap.rest with
    | nil => exact .inl rfl
    | cons ch rest =>
      obtain ⟨hblank, hslash⟩ := Gap.front_of_skip hrest
      have hc : c = ⟨gap ++ ch :: rest, c.position⟩ := by
        rw [← hrest]
        exact congrArg (Cursor.mk · c.position) hgap
      refine .inr ⟨gap, ch, rest, hc, ?_, hblank, hslash, hkeeps⟩
      rw [hc]
      exact (hkeeps (ch :: rest) c.position).trans (Gap.skip_of_ne hblank hslash _)

section scanning

variable {c : Cursor} {gap rest : List Char} {ch : Char} {q : Position} {lexeme : Lexeme} {n : Nat}

theorem next?_of_skipGap (h : c.skipGap = ⟨ch :: rest, q⟩) (hread : Lexeme.read ch rest = (lexeme, n)) :
    c.next? = some (lexeme.item q (drop (n + 1) ⟨ch :: rest, q⟩).position, drop (n + 1) ⟨ch :: rest, q⟩) := by
  simp only [next?, h, hread]

theorem cleared_of_nil (h : c.skipGap.rest = []) : c.cleared = c.rest := by
  rw [cleared]
  split
  · rw [h, List.length_nil, Nat.sub_zero, List.take_length]
  · next hcons => exact nomatch h.symm.trans hcons

theorem cleared_of_skipGap (h : c.skipGap = ⟨ch :: rest, q⟩) (hgap : c.rest = gap ++ ch :: rest)
    (hread : Lexeme.read ch rest = (lexeme, n)) :
    c.cleared = gap ++ (lexeme.cleared (ch :: rest.take n) ++ (drop (n + 1) ⟨ch :: rest, q⟩).cleared) := by
  rw [cleared]
  split
  · next hnil =>
    rw [h] at hnil
    exact nomatch hnil
  · next d ds hcons =>
    rw [h] at hcons
    obtain ⟨rfl, rfl⟩ := List.cons.inj hcons
    rw [hread]
    dsimp only
    rw [h, hgap, List.length_append, Nat.add_sub_cancel, List.take_left]

end scanning

theorem items_of_blank_gap {gap : List Char}
    (h : ∀ more q, skipGap ⟨gap ++ more, q⟩ = skipGap ⟨more, q.afterAll gap⟩) (more : List Char)
    (q : Position) : items ⟨gap ++ more, q⟩ = items ⟨more, q.afterAll gap⟩ := by
  apply items_congr
  simp only [next?, h]

/-- Blanks take up the same places as what they stand for. -/
theorem items_blankOut (cs more : List Char) (q : Position) :
    items ⟨Text.blankOut cs ++ more, q⟩ = items ⟨more, q.afterAll cs⟩ := by
  induction cs generalizing q with
  | nil => rfl
  | cons c cs ih =>
    have hskip {d : Char} (hd : Text.isBlank d) (more : List Char) (q : Position) :
        skipGap ⟨[d] ++ more, q⟩ = skipGap ⟨more, q.afterAll [d]⟩ := Gap.skip_of_blank hd more q
    rw [Text.blankOut, List.map_cons, Position.afterAll_cons, ← ih (q.after c)]
    by_cases hc : c = '\n'
    · rw [if_pos hc, hc]
      exact items_of_blank_gap (hskip (by decide)) _ q
    · have hafter : q.after c = q.after ' ' := by
        simp [Position.after, hc]
      rw [if_neg hc, hafter]
      exact items_of_blank_gap (hskip (by decide)) _ q

/-- Blanks in place of what begins no token begin none either, and what comes after it begins where it did. -/
theorem head_cleared (c : Cursor) : Eases c.rest c.cleared := by
  rcases c.skipGap_cases with hnil | ⟨gap, ch, rest, hc, hskip, hblank, -, -⟩
  · rw [cleared_of_nil hnil]
    exact fun d hd => .inl hd
  · have hrest : c.rest = gap ++ ch :: rest := congrArg Cursor.rest hc
    obtain ⟨⟨lexeme, n⟩, hread⟩ : ∃ r, Lexeme.read ch rest = r := ⟨_, rfl⟩
    rw [cleared_of_skipGap hskip hrest hread, hrest]
    refine Eases.append ?_ gap
    have hline : ch ≠ '\n' := by
      rintro rfl
      exact absurd hblank (by decide)
    cases lexeme with
    | token => exact fun d hd => .inl hd
    | stray | unterminated =>
      intro d hd
      rw [Lexeme.cleared, Text.blankOut, List.map_cons, if_neg hline] at hd
      exact .inr (Option.some_inj.1 hd).symm

/-- The same from the first lexeme on, if it holds of what comes after it. -/
theorem items_cleared_of_read {ch : Char} {front tail : List Char} {lexeme : Lexeme} {q : Position}
    (hblank : Text.isBlank ch = false)
    (hslash : ch = '/' → (front ++ tail).head? ≠ some '/' ∧ (front ++ tail).head? ≠ some '*')
    (hread : Lexeme.read ch (front ++ tail) = (lexeme, front.length)) :
    let stop : Cursor := ⟨tail, q.afterAll (ch :: front)⟩
    items ⟨stop.cleared, stop.position⟩ = (Parse.tokensOf stop.items).map .ok →
      items ⟨lexeme.cleared (ch :: front) ++ stop.cleared, q⟩ =
        (Parse.tokensOf (lexeme.item q stop.position :: stop.items)).map .ok := by
  intro stop hstop
  have heases : Eases tail stop.cleared := stop.head_cleared
  cases lexeme with
  | token kind text =>
    have hslash' : ch = '/' → (front ++ stop.cleared).head? ≠ some '/' ∧
        (front ++ stop.cleared).head? ≠ some '*' := by
      intro h
      have hkeep {d : Char} (hd : (front ++ tail).head? ≠ some d) (hblank : d ≠ ' ') :
          (front ++ stop.cleared).head? ≠ some d := by
        intro hhead
        rcases heases.append front d hhead with hmem | hd'
        · exact hd hmem
        · exact hblank hd'
      exact ⟨hkeep (hslash h).1 (by decide), hkeep (hslash h).2 (by decide)⟩
    have hskip : skipGap ⟨ch :: (front ++ stop.cleared), q⟩ = ⟨ch :: (front ++ stop.cleared), q⟩ :=
      Gap.skip_of_ne hblank hslash' q
    have hnext := next?_of_skipGap hskip (Lexeme.read_eases hread heases)
    have hdrop : drop (front.length + 1) ⟨ch :: (front ++ stop.cleared), q⟩ = ⟨stop.cleared, stop.position⟩ :=
      drop_append (ch :: front) stop.cleared q
    rw [hdrop] at hnext
    show items ⟨ch :: (front ++ stop.cleared), q⟩ = _
    rw [items_eq, hnext]
    exact congrArg (_ :: ·) hstop
  | stray | unterminated => exact (items_blankOut (ch :: front) stop.cleared q).trans hstop

/-- The tokens are scanned again, in their places, and no error is. -/
theorem items_cleared (c : Cursor) :
    items ⟨c.cleared, c.position⟩ = (Parse.tokensOf c.items).map .ok := by
  rcases c.skipGap_cases with hnil | ⟨gap, ch, rest, hc, hskip, hblank, hslash, hkeeps⟩
  · have hnext : c.next? = none := by
      simp only [next?, hnil]
    have hcleared : (⟨c.cleared, c.position⟩ : Cursor) = c := by
      rw [cleared_of_nil hnil]
    rw [hcleared, items_eq, hnext]
    rfl
  · have hrest : c.rest = gap ++ ch :: rest := congrArg Cursor.rest hc
    obtain ⟨⟨lexeme, n⟩, hread⟩ : ∃ r, Lexeme.read ch rest = r := ⟨_, rfl⟩
    obtain ⟨front, tail, rfl, rfl⟩ : ∃ front tail, rest = front ++ tail ∧ n = front.length := by
      refine ⟨rest.take n, rest.drop n, (List.take_append_drop n rest).symm, ?_⟩
      rw [List.length_take, Nat.min_eq_left (Lexeme.read_covers hread []).1]
    have hdrop : drop (front.length + 1) ⟨ch :: (front ++ tail), c.position.afterAll gap⟩ =
        ⟨tail, (c.position.afterAll gap).afterAll (ch :: front)⟩ := drop_append (ch :: front) tail _
    have hnext := next?_of_skipGap hskip hread
    have hcleared := cleared_of_skipGap hskip hrest hread
    rw [hdrop] at hnext
    rw [List.take_left, hdrop] at hcleared
    have : tail.length < c.rest.length := by
      rw [hrest]
      simp only [List.length_append, List.length_cons]
      omega
    have hstop := items_cleared ⟨tail, (c.position.afterAll gap).afterAll (ch :: front)⟩
    rw [hcleared, items_of_blank_gap hkeeps, items_eq c, hnext]
    exact items_cleared_of_read hblank hslash hread hstop
termination_by c.rest.length

end Cursor

open Parse

/-- Characters that belong to no token may as well be blank. The same program is read, with the same places,
and the parser finds the same faults in the same order; besides these the scanner reports its own errors, each
once and from left to right. -/
theorem parse_of_cleared (source : String) :
    (parse (clearedOf source)).program = (parse source).program ∧
      (parse source).diagnostics.filter (·.lexical?.isNone) = (parse (clearedOf source)).diagnostics ∧
      (parse source).diagnostics.filterMap (·.lexical?) = errorsOf (itemsOf source) := by
  have hitems : itemsOf (clearedOf source) = (tokensOf (itemsOf source)).map .ok := by
    unfold itemsOf clearedOf Cursor.ofText
    rw [String.toList_ofList]
    exact Cursor.items_cleared _
  obtain ⟨hlexical, hsyntactic⟩ := inOrder_parts (syntactic_program (tokensOf (itemsOf source)))
    (tokensOf (itemsOf source)).length (itemsOf source)
  unfold parse
  rw [hitems, ofItems_map_ok]
  exact ⟨rfl, hsyntactic, hlexical⟩

example : clearedOf "1 @ 2; \"x\ny" = "1   2;   \n " := by
  decide +kernel

end Monkey
