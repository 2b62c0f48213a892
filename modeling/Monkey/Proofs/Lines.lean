import Monkey.Proofs.Meaning
import Monkey.Proofs.Partition
import Monkey.Proofs.RoundTrip

namespace Monkey

/-- The item apart from the place where it stands, if it is a token. -/
def Item.bare : Item → Option Token
  | .ok t => some t.bare
  | .error _ => none

/-- What is scanned from a text, wherever it stands. -/
def spelling (cs : List Char) : List (Option Token) :=
  (Cursor.items ⟨cs, .first⟩).map Item.bare

section scanning

variable {cs more : List Char}

theorem Gap.rest_skip (g : Gap) (cs : List Char) (p p' : Position) :
    (skip g cs p').rest = (skip g cs p).rest := by
  fun_induction skip g cs p generalizing p' with
  | case1 => rw [skip]
  | case2 cs p ih | case3 cs p ih => exact ih _
  | case4 c cs p _ _ hc ih =>
    rw [skip_of_blank hc]
    exact ih _
  | case5 c cs p hline hblock hc =>
    rw [skip_of_ne (Bool.eq_false_iff.2 hc)]
    refine fun hslash => ⟨fun hd => ?_, fun hd => ?_⟩
    · obtain ⟨tail, htail⟩ := List.head?_eq_some_iff.1 hd
      exact hline tail hslash htail
    · obtain ⟨tail, htail⟩ := List.head?_eq_some_iff.1 hd
      exact hblock tail hslash htail
  | case6 c cs p ih =>
    rw [skip]
    exact ih _
  | case7 n cs p ih | case9 n cs p ih | case8 cs p ih => exact ih _
  | case10 n c cs p hopening hlast hclosing ih =>
    rw [skip]
    · exact ih _
    · exact hopening
    · exact hlast
    · exact hclosing

/-- If more than a slash is left, nothing that comes later belongs to the gap. -/
theorem Gap.rest_skip_append (g : Gap) (cs more : List Char) (p p' : Position)
    (hne : (skip g cs p).rest ≠ []) (hslash : (skip g cs p).rest ≠ ['/']) :
    (skip g (cs ++ more) p').rest = (skip g cs p).rest ++ more := by
  fun_induction skip g cs p generalizing p' with
  | case1 => exact absurd rfl hne
  | case2 cs p ih | case3 cs p ih => exact ih _ hne hslash
  | case4 c cs p _ _ hc ih =>
    rw [List.cons_append, skip_of_blank hc]
    exact ih _ hne hslash
  | case5 c cs p hline hblock hc =>
    rw [List.cons_append, skip_of_ne (Bool.eq_false_iff.2 hc)]
    rintro rfl
    cases cs with
    | nil => exact absurd rfl hslash
    | cons d tail =>
      refine ⟨fun hd => hline tail rfl ?_, fun hd => hblock tail rfl ?_⟩
      · rw [Option.some_inj.1 hd]
      · rw [Option.some_inj.1 hd]
  | case6 c cs p ih =>
    rw [List.cons_append, skip]
    exact ih _ hne hslash
  | case7 n cs p ih | case9 n cs p ih | case8 cs p ih => exact ih _ hne hslash
  | case10 n c cs p hopening hlast hclosing ih =>
    cases cs with
    | nil => exact absurd (by simp [skip]) hne
    | cons d tail =>
      rw [List.cons_append, skip]
      · exact ih _ hne hslash
      · rintro rest rfl hd
        exact hopening tail rfl (by rw [(List.cons.inj hd).1])
      · rintro rest rfl rfl hd
        exact hlast tail rfl rfl (by rw [(List.cons.inj hd).1])
      · rintro m rest rfl rfl hd
        exact hclosing m tail rfl rfl (by rw [(List.cons.inj hd).1])

theorem takeWhile_append_of_lt {p : Char → Bool} (h : (cs.takeWhile p).length < cs.length) :
    (cs ++ more).takeWhile p = cs.takeWhile p := by
  obtain ⟨front, rest, rfl, hfront, hall, hrest⟩ := exists_takeWhile p cs
  rw [hfront] at h ⊢
  rw [List.append_assoc]
  refine takeWhile_append_eq hall fun c hc => hrest c ?_
  cases rest with
  | nil => simp at h
  | cons d rest => exact hc

namespace Lexeme

def bare : Lexeme → Option Token
  | token kind text => some (.synthetic kind (String.ofList text))
  | _ => none

theorem bare_item (lexeme : Lexeme) (p q : Position) : (lexeme.item p q).bare = lexeme.bare := by
  cases lexeme <;> rfl

/-- A lexeme that ends before the text does is read in the same way whatever comes later. -/
theorem read_append {ch : Char} {lexeme : Lexeme} {n : Nat} (h : read ch cs = (lexeme, n))
    (hn : n < cs.length) (more : List Char) : read ch (cs ++ more) = (lexeme, n) := by
  have hlength : cs.length ≤ (cs ++ more).length := by simp
  rw [read] at h ⊢
  split at h
  · next hquote =>
    rw [if_pos hquote]
    dsimp only at h ⊢
    split at h
    · next hlt =>
      cases h
      rw [takeWhile_append_of_lt hlt, if_pos (by omega)]
    · next hlt =>
      cases h
      exact absurd hn hlt
  next hquote =>
  rw [if_neg hquote]
  split at h
  · next hdigit =>
    cases h
    rw [if_pos hdigit]
    dsimp only
    rw [takeWhile_append_of_lt hn]
  next hdigit =>
  rw [if_neg hdigit]
  split at h
  · next hletter =>
    cases h
    rw [if_pos hletter]
    dsimp only
    rw [takeWhile_append_of_lt hn]
  next hletter =>
  rw [if_neg hletter]
  have hsymbol : Kind.ofSymbol? ch (cs ++ more) = Kind.ofSymbol? ch cs := by
    obtain ⟨d, tail, rfl⟩ : ∃ d tail, cs = d :: tail := List.exists_cons_of_length_pos (by omega)
    rfl
  rw [hsymbol]
  split at h
  · cases h
    rw [List.take_append_of_le_length (Nat.le_of_lt hn)]
  · cases h
    rfl

theorem read_semicolon (cs : List Char) : read ';' cs = (token .semicolon [';'], 0) :=
  read_symbol rfl fun h => absurd h (by decide)

theorem eq_semicolon_of_read {ch : Char} (h : (read ch cs).1.bare = some Kind.semicolon.token) :
    ch = ';' := by
  obtain ⟨⟨lexeme, n⟩, hread⟩ : ∃ r, read ch cs = r := ⟨_, rfl⟩
  rw [hread] at h
  have hcovers := (read_covers hread []).2
  cases lexeme with
  | token kind text =>
    obtain ⟨rfl, htext, -⟩ := Token.mk.inj (Option.some_inj.1 h)
    generalize hitem : item _ _ _ = item' at hcovers
    cases hcovers with
    | token =>
      obtain ⟨-, htext', -⟩ := Token.mk.inj (Except.ok.inj hitem)
      have hsame := congrArg String.toList (htext'.symm.trans htext)
      rw [String.toList_ofList] at hsame
      exact (List.cons.inj hsame).1
    | string => exact nomatch hitem
    | stray | unterminated => exact nomatch hitem
  | stray | unterminated => exact nomatch h

end Lexeme

namespace Cursor

theorem next?_of_nil {c : Cursor} (h : c.skipGap.rest = []) : c.next? = none := by
  simp only [next?, h]

theorem next?_of_cons {c : Cursor} {ch : Char} {tail : List Char} (h : c.skipGap.rest = ch :: tail) :
    ∃ p q, c.next? =
      some ((Lexeme.read ch tail).1.item p q, ⟨tail.drop (Lexeme.read ch tail).2, q⟩) := by
  let stop := drop ((Lexeme.read ch tail).2 + 1) c.skipGap
  have hstop : stop = ⟨tail.drop (Lexeme.read ch tail).2, stop.position⟩ := by
    refine congrArg (Cursor.mk · stop.position) ?_
    rw [rest_drop, h, List.drop_succ_cons]
  refine ⟨c.skipGap.position, stop.position, ?_⟩
  rw [← hstop]
  simp only [next?, h]
  rfl

/-- A token that ends before the text does, or is a semicolon, is scanned in the same way wherever the text
stands and whatever comes later. -/
theorem next?_append {p q : Position} {item : Item} {rest : List Char}
    (h : next? ⟨cs, p⟩ = some (item, ⟨rest, q⟩))
    (hrest : rest ≠ [] ∨ item.bare = some Kind.semicolon.token) (more : List Char) (p' : Position) :
    ∃ item' q', next? ⟨cs ++ more, p'⟩ = some (item', ⟨rest ++ more, q'⟩) ∧ item'.bare = item.bare := by
  cases hskip : (skipGap ⟨cs, p⟩).rest with
  | nil =>
    rw [next?_of_nil hskip] at h
    exact nomatch h
  | cons ch tail =>
    obtain ⟨start, stop, hnext⟩ := next?_of_cons hskip
    rw [hnext] at h
    obtain ⟨rfl, hstop⟩ := Prod.mk.inj (Option.some_inj.1 h)
    obtain ⟨rfl, -⟩ := Cursor.mk.inj hstop
    rw [Lexeme.bare_item] at hrest ⊢
    have hread : Lexeme.read ch (tail ++ more) = Lexeme.read ch tail ∧
        (Lexeme.read ch tail).2 ≤ tail.length ∧ ch :: tail ≠ ['/'] := by
      rcases hrest with hrest | hsemicolon
      · have hlt : (Lexeme.read ch tail).2 < tail.length := by
          rw [ne_eq, List.drop_eq_nil_iff] at hrest
          omega
        refine ⟨Lexeme.read_append rfl hlt more, Nat.le_of_lt hlt, ?_⟩
        rintro ⟨⟩
        exact absurd hlt (Nat.not_lt_zero _)
      · obtain rfl := Lexeme.eq_semicolon_of_read hsemicolon
        rw [Lexeme.read_semicolon, Lexeme.read_semicolon]
        exact ⟨rfl, Nat.zero_le _, by simp⟩
    obtain ⟨hread, hle, hslash⟩ := hread
    have hskip' : (skipGap ⟨cs ++ more, p'⟩).rest = ch :: (tail ++ more) := by
      rw [skipGap] at hskip ⊢
      rw [← hskip] at hslash
      have hne : (Gap.skip .blank cs p).rest ≠ [] := hskip ▸ List.cons_ne_nil _ _
      exact (Gap.rest_skip_append .blank cs more p p' hne hslash).trans (by rw [hskip]; rfl)
    obtain ⟨start', stop', hnext'⟩ := next?_of_cons hskip'
    rw [hread, List.drop_append_of_le_length hle] at hnext'
    exact ⟨_, stop', hnext', Lexeme.bare_item _ _ _⟩

theorem items_bare (cs : List Char) (p : Position) : (items ⟨cs, p⟩).map Item.bare = spelling cs := by
  have hskip : (skipGap ⟨cs, p⟩).rest = (skipGap ⟨cs, .first⟩).rest := Gap.rest_skip .blank cs .first p
  rw [spelling, items_eq, items_eq ⟨cs, .first⟩]
  cases hrest : (skipGap ⟨cs, .first⟩).rest with
  | nil => rw [next?_of_nil (hskip.trans hrest), next?_of_nil hrest]
  | cons ch tail =>
    obtain ⟨start, stop, hnext⟩ := next?_of_cons (hskip.trans hrest)
    obtain ⟨start', stop', hnext'⟩ := next?_of_cons hrest
    have hlt : (tail.drop (Lexeme.read ch tail).2).length < cs.length := length_lt_of_next? hnext'
    rw [hnext, hnext', List.map_cons, List.map_cons, Lexeme.bare_item, Lexeme.bare_item,
      items_bare _ stop, items_bare _ stop']
termination_by cs.length
decreasing_by all_goals exact hlt

end Cursor

theorem eq_map_ok_of_bare {items : List Item} {us : List Token} (h : items.map Item.bare = us.map some) :
    ∃ ts : List Token, items = ts.map .ok ∧ ts.map .bare = us := by
  induction items generalizing us with
  | nil =>
    obtain rfl := List.map_eq_nil_iff.1 h.symm
    exact ⟨[], rfl, rfl⟩
  | cons item items ih =>
    cases us with
    | nil => exact nomatch h
    | cons u us =>
      obtain ⟨hitem, hitems⟩ := List.cons.inj h
      obtain ⟨ts, rfl, rfl⟩ := ih hitems
      cases item with
      | ok t =>
        cases hitem
        exact ⟨t :: ts, rfl, rfl⟩
      | error e => exact nomatch hitem

theorem reads_iff {us : List Token} : Reads cs us ↔ spelling cs = us.map some := by
  constructor
  · intro h
    obtain ⟨ts, hitems, rfl⟩ := h .first
    rw [spelling, hitems, List.map_map, List.map_map]
    rfl
  · intro h p
    rw [← Cursor.items_bare cs p] at h
    exact eq_map_ok_of_bare h

end scanning

namespace Position

/-- A text that is not empty ends at another place than it begins at. -/
theorem eq_nil_of_endOf_append {before cs : List Char} (h : endOf (before ++ cs) = endOf before) :
    cs = [] := by
  obtain ⟨hline, hcolumn⟩ := Position.mk.inj h
  rw [List.count_append] at hline
  have hnone : cs.count '\n' = 0 := by omega
  have hsame : ∀ c ∈ cs.reverse, decide (c ≠ '\n') = true := by
    intro c hc
    rw [decide_eq_true_iff]
    rintro rfl
    exact List.count_eq_zero.1 hnone (List.mem_reverse.1 hc)
  rw [List.reverse_append, List.takeWhile_append_of_pos hsame, List.length_append,
    List.length_reverse] at hcolumn
  exact List.length_eq_zero_iff.1 (by omega)

/-- Of one text, no two parts from its beginning end at the same place. -/
theorem eq_of_endOf_eq {before before' cs cs' : List Char} (h : before ++ cs = before' ++ cs')
    (hend : endOf before = endOf before') : before = before' := by
  rcases List.append_eq_append_iff.1 h with ⟨more, rfl, -⟩ | ⟨more, rfl, -⟩
  · rw [eq_nil_of_endOf_append hend.symm, List.append_nil]
  · rw [eq_nil_of_endOf_append hend, List.append_nil]

end Position

/-- The semicolon that comes after a text. -/
def Token.semicolonAfter (cs : List Char) : Token :=
  ⟨.semicolon, ";", .endOf cs, .endOf (cs ++ [';'])⟩

theorem spelling_blanks {blanks : List Char} (hblanks : ∀ c ∈ blanks, Text.isBlank c) (more : List Char) :
    spelling (blanks ++ more) = spelling more := by
  induction blanks with
  | nil => rfl
  | cons c blanks ih =>
    rw [List.forall_mem_cons] at hblanks
    have hnext : Cursor.next? ⟨c :: (blanks ++ more), .first⟩ =
        Cursor.next? ⟨blanks ++ more, Position.first.after c⟩ := by
      unfold Cursor.next? Cursor.skipGap
      rw [Gap.skip_of_blank hblanks.1]
    rw [List.cons_append, spelling, Cursor.items_congr hnext, Cursor.items_bare, ih hblanks.2]

theorem items_blanks {blanks : List Char} (hblanks : ∀ c ∈ blanks, Text.isBlank c) (p : Position) :
    Cursor.items ⟨blanks, p⟩ = [] := by
  have hspelling := spelling_blanks hblanks []
  rw [List.append_nil, ← Cursor.items_bare blanks p, reads_iff.1 reads_nil] at hspelling
  exact List.map_eq_nil_iff.1 hspelling

theorem Item.Covers.stop_eq {before stretch rest : List Char} {t : Token}
    (h : Item.Covers before stretch rest (.ok t)) : t.stop = .endOf (before ++ stretch) := by
  cases h <;> rfl

/-- If the last character but for blanks is a semicolon that is a token, then it is the last token, and what
comes later is scanned apart from the text. -/
theorem spelling_append {before cs front blanks : List Char}
    (hcs : before ++ cs = front ++ ';' :: blanks) (hblanks : ∀ c ∈ blanks, Text.isBlank c)
    (hmem : .ok (.semicolonAfter front) ∈ Cursor.items ⟨cs, .endOf before⟩) (more : List Char) :
    spelling (cs ++ more) = spelling cs ++ spelling more ∧
      (Cursor.items ⟨cs, .endOf before⟩).getLast? = some (.ok (.semicolonAfter front)) := by
  rw [← Cursor.items_bare cs (.endOf before)]
  rw [Cursor.items_eq] at hmem ⊢
  rcases Cursor.next?_covers before cs with ⟨-, hnext, -⟩ |
    ⟨gap, stretch, rest, item, hsplit, -, -, hitem, hnext⟩
  · rw [hnext] at hmem
    exact absurd hmem List.not_mem_nil
  rw [hnext] at hmem ⊢
  dsimp only at hmem ⊢
  have hwhole : before ++ gap ++ stretch ++ rest = front ++ [';'] ++ blanks := by
    rw [← List.append_cons, ← hcs, hsplit]
    simp only [List.append_assoc]
  have hstep (hrest : rest ≠ [] ∨ item.bare = some Kind.semicolon.token) :
      spelling (cs ++ more) = item.bare :: spelling (rest ++ more) := by
    obtain ⟨item', q, hnext', hbare⟩ := Cursor.next?_append hnext hrest more .first
    rw [spelling, Cursor.items_eq, hnext', List.map_cons, hbare, Cursor.items_bare]
  rcases List.mem_cons.1 hmem with rfl | hmem
  · -- the place where the token stops tells that only blanks come after it
    have hfront := Position.eq_of_endOf_eq hwhole hitem.stop_eq.symm
    rw [hfront] at hwhole
    obtain rfl : rest = blanks := List.append_cancel_left hwhole
    rw [items_blanks hblanks, hstep (.inr rfl), spelling_blanks hblanks]
    exact ⟨rfl, rfl⟩
  · have hne : rest ≠ [] := by
      rintro rfl
      rw [items_blanks (fun _ h => absurd h List.not_mem_nil)] at hmem
      exact absurd hmem List.not_mem_nil
    have hlt : rest.length < cs.length := Cursor.length_lt_of_next? hnext
    obtain ⟨hspelling, hlast⟩ := spelling_append (hwhole.trans (by simp)) hblanks hmem more
    refine ⟨?_, ?_⟩
    · rw [hstep (.inl hne), hspelling, List.map_cons, Cursor.items_bare, List.cons_append]
    · rw [List.getLast?_cons, hlast, Option.getD_some]
termination_by cs.length

namespace Parse

/-- The tokens that may end a statement without its semicolon. -/
def finishers : List Kind :=
  [.ident, .int, .string, .trueWord, .falseWord, .parenR, .bracketR, .braceR]

def Finishes (ts : List Token) : Prop :=
  ∃ t ∈ ts.getLast?, t.kind ∈ finishers

theorem finishes_concat (ts : List Token) {t : Token} (h : t.kind ∈ finishers) : Finishes (ts ++ [t]) :=
  ⟨t, List.getLast?_concat, h⟩

theorem Finishes.append {ts : List Token} (h : Finishes ts) (us : List Token) : Finishes (us ++ ts) := by
  obtain ⟨t, ht, hk⟩ := h
  refine ⟨t, ?_, hk⟩
  rw [Option.mem_def, List.getLast?_append, Option.mem_def.1 ht, Option.some_or]

theorem Braced.finishes {ts : List Token} {stmts : List Stmt} (h : Braced ts stmts) : Finishes ts := by
  cases h with
  | mk _ _ hk => exact finishes_concat _ (by rw [hk]; decide)

theorem Primary.finishes {ts : List Token} {e : Expr} (h : Primary ts e) : Finishes ts := by
  cases h with
  | ident hk | int hk | string hk | trueWord hk | falseWord hk =>
    exact finishes_concat [] (by rw [hk]; decide)
  | group _ _ hk | array _ _ hk | hash _ _ hk => exact finishes_concat _ (by rw [hk]; decide)
  | cond _ _ _ _ hbody | function _ _ _ _ hbody | condElse _ _ _ _ _ _ hbody =>
    exact (hbody.finishes.append [_]).append _

theorem Phrase.finishes {level : Level} {ts : List Token} {e : Expr} : Phrase level ts e → Finishes ts
  | .primary h => h.finishes
  | .call _ _ _ hk | .index _ _ _ hk => finishes_concat _ (by rw [hk]; decide)
  | .unary _ h => h.finishes.append [_]
  | .binary _ _ h => (h.finishes.append [_]).append _
  | .tighter h => h.finishes

theorem Sentence.finishes {ts : List Token} {s : Stmt} (h : Sentence ts s) : Finishes ts := by
  cases h with
  | bind _ _ _ h => exact h.finishes.append [_, _, _]
  | give _ h => exact h.finishes.append [_]
  | expr h => exact h.finishes

/-- Statements may come after others that end with a semicolon, since nothing is carried on over it. -/
theorem Sentences.append {ts us : List Token} {stmts more : List Stmt} (hus : Sentences us more) :
    Sentences ts stmts → (∀ t ∈ ts.getLast?, t.kind = .semicolon) → Sentences (ts ++ us) (stmts ++ more)
  | .nil, _ => hus
  | .ended hs hsemicolon hstmts, hend => by
    rw [List.append_assoc, List.cons_append]
    refine .ended hs hsemicolon (Sentences.append hus hstmts fun t ht => hend t ?_)
    rw [Option.mem_def, List.getLast?_append, List.getLast?_cons, Option.mem_def.1 ht]
    rfl
  | @Sentences.bare _ rest _ _ hs hfront hstmts, hend => by
    rw [List.append_assoc]
    cases rest with
    | nil =>
      obtain ⟨t, ht, hk⟩ := hs.finishes
      rw [List.append_nil] at hend
      rw [hend t ht] at hk
      exact absurd hk (by decide)
    | cons t rest =>
      refine .bare hs hfront (Sentences.append hus hstmts fun t' ht => hend t' ?_)
      rw [Option.mem_def, List.getLast?_append, Option.mem_def.1 ht]
      rfl

end Parse

open Parse

/-- Statements without errors, of which a semicolon is the last character that is not blank. It is a token and
not in a comment. -/
structure EndsWithSemicolon (line : String) : Prop where
  diagnostics : (parse line).diagnostics = []
  program : (parse line).program ≠ []
  semicolon : ∃ front blanks, line.toList = front ++ ';' :: blanks ∧ (∀ c ∈ blanks, Text.isBlank c) ∧
    .ok (.semicolonAfter front) ∈ itemsOf line

/-- A line of whole statements, or one without anything. -/
structure IsLine (line : String) : Prop where
  newline : ∃ cs, line.toList = cs ++ ['\n'] ∧ '\n' ∉ cs
  content : (∀ c ∈ line.toList, Text.isBlank c) ∨ EndsWithSemicolon line

theorem eq_map_ok_of_lexicalFaults {items : List Item} {ahead : Nat} (h : lexicalFaults ahead items = []) :
    items = (tokensOf items).map .ok := by
  induction items generalizing ahead with
  | nil => rfl
  | cons item items ih =>
    cases item with
    | ok t => rw [tokensOf, List.map_cons, ← ih h]
    | error e => exact absurd h (List.cons_ne_nil _ _)

/-- A source that is read without errors has none in its tokens, and they spell its program. -/
theorem sentences_of_parse {source : String} (h : (parse source).diagnostics = []) :
    ∃ ts : List Token, itemsOf source = ts.map .ok ∧
      Sentences (ts.map .bare) (bareStmts (parse source).program) := by
  have hlength := congrArg List.length h
  rw [parse, ofItems, inOrder, List.length_map, List.length_merge, List.length_nil] at hlength
  have hfaults : lexicalFaults (tokensOf (itemsOf source)).length (itemsOf source) = [] :=
    List.length_eq_zero_iff.1 (by omega)
  have hitems : itemsOf source = (tokensOf (itemsOf source)).map .ok := eq_map_ok_of_lexicalFaults hfaults
  obtain ⟨hdiagnostics, hprogram⟩ := parse_of_bare hitems
  rw [h, eq_comm, List.map_eq_nil_iff] at hdiagnostics
  exact ⟨_, hitems, (program_yields_iff _ _).1 ⟨hdiagnostics, hprogram.symm⟩⟩

theorem parse_of_blank {source : String} (h : ∀ c ∈ source.toList, Text.isBlank c) :
    (parse source).diagnostics = [] ∧ bareStmts (parse source).program = [] := by
  have hitems : itemsOf source = ([] : List Token).map .ok := items_blanks h .first
  obtain ⟨hdiagnostics, hprogram⟩ := parse_of_bare hitems
  rw [List.map_nil, program] at hdiagnostics hprogram
  exact ⟨hdiagnostics, hprogram⟩

theorem IsLine.diagnostics {line : String} (h : IsLine line) : (parse line).diagnostics = [] := by
  rcases h.content with hblank | hline
  · exact (parse_of_blank hblank).1
  · exact hline.diagnostics

/-- The tokens of a line are scanned, and spell its statements, apart from what comes later. -/
theorem IsLine.spelled {line : String} (h : IsLine line) :
    ∃ us, (∀ cs vs, Reads cs vs → Reads (line.toList ++ cs) (us ++ vs)) ∧
      ∀ vs stmts, Sentences vs stmts → Sentences (us ++ vs) (bareStmts (parse line).program ++ stmts) := by
  rcases h.content with hblank | hline
  · refine ⟨[], fun cs vs hcs => ?_, fun vs stmts hstmts => ?_⟩
    · rw [List.nil_append, reads_iff, spelling_blanks hblank]
      exact reads_iff.1 hcs
    · rw [(parse_of_blank hblank).2]
      exact hstmts
  · obtain ⟨ts, hitems, hsentences⟩ := sentences_of_parse hline.diagnostics
    obtain ⟨front, blanks, hsplit, hblanks, hmem⟩ := hline.semicolon
    have hbegin : [] ++ line.toList = front ++ ';' :: blanks := hsplit
    have hafter := spelling_append hbegin hblanks hmem
    refine ⟨ts.map .bare, fun cs vs hcs => reads_iff.2 ?_, fun vs stmts hstmts => ?_⟩
    · have hline : spelling line.toList = (ts.map Token.bare).map some := by
        rw [List.map_map]
        exact (congrArg (List.map Item.bare) hitems).trans List.map_map
      rw [(hafter cs).1, reads_iff.1 hcs, hline, List.map_append]
    · refine Sentences.append hstmts hsentences fun t ht => ?_
      have hlast : (itemsOf line).getLast? = some (.ok (.semicolonAfter front)) := (hafter []).2
      rw [hitems, List.getLast?_map, Option.map_eq_some_iff] at hlast
      obtain ⟨last, hlast, hok⟩ := hlast
      rw [List.getLast?_map, hlast] at ht
      cases hok
      rw [← Option.some_inj.1 ht]
      rfl

/-- Lines are read one after the other as they are read alone. -/
theorem parse_join {lines : List String} (h : ∀ line ∈ lines, IsLine line) :
    (parse (String.join lines)).diagnostics = [] ∧
      bareStmts (parse (String.join lines)).program =
        lines.flatMap fun line => bareStmts (parse line).program := by
  have hspelled : ∃ us, Reads (lines.flatMap String.toList) us ∧
      Sentences us (lines.flatMap fun line => bareStmts (parse line).program) := by
    induction lines with
    | nil => exact ⟨[], reads_nil, .nil⟩
    | cons line lines ih =>
      rw [List.forall_mem_cons] at h
      obtain ⟨us, hreads, hsentences⟩ := h.1.spelled
      obtain ⟨vs, hvs, hstmts⟩ := ih h.2
      exact ⟨us ++ vs, hreads _ _ hvs, hsentences _ _ hstmts⟩
  obtain ⟨us, hreads, hsentences⟩ := hspelled
  rw [← String.toList_join] at hreads
  exact parse_of_reads hreads hsentences

end Monkey
