import Monkey.Parse.Source
import Monkey.Proofs.Scanning

namespace Monkey

namespace Position

/-- The place just after a text, told from the text as a whole. -/
def endOf (cs : List Char) : Position :=
  ⟨cs.count '\n' + 1, (cs.reverse.takeWhile (· ≠ '\n')).length + 1⟩

theorem after_endOf (cs : List Char) (c : Char) : (endOf cs).after c = endOf (cs ++ [c]) := by
  by_cases hc : c = '\n'
  · simp [endOf, after, hc]
  · simp [endOf, after, hc]

theorem afterAll_endOf (before cs : List Char) : (endOf before).afterAll cs = endOf (before ++ cs) := by
  induction cs generalizing before with
  | nil => rw [afterAll_nil, List.append_nil]
  | cons c cs ih => rw [afterAll_cons, after_endOf, ih, List.append_assoc, List.singleton_append]

theorem endOf_le (cs : List Char) :
    (endOf cs).line ≤ cs.length + 1 ∧ (endOf cs).column ≤ cs.length + 1 := by
  have hline : cs.count '\n' ≤ cs.length := List.count_le_length
  have hcolumn : (cs.reverse.takeWhile (· ≠ '\n')).length ≤ cs.reverse.length :=
    (List.takeWhile_sublist _).length_le
  rw [List.length_reverse] at hcolumn
  simp only [endOf]
  omega

end Position

section comments

/-- How many more comments a text opens than it closes. Its marks `/*` and `*/` are read from left to right,
and no two of them share a character. -/
def nesting : List Char → Int
  | '/' :: '*' :: cs => nesting cs + 1
  | '*' :: '/' :: cs => nesting cs - 1
  | _ :: cs => nesting cs
  | [] => 0

/-- A reader inside so many comments is still inside one after any part of the text. -/
def Stays (depth : Nat) (body : List Char) : Prop :=
  ∀ part, part <+: body → 0 < nesting part + depth

/-- A reader inside so many comments is out of all of them after the text, and not before. -/
def Leaves (depth : Nat) (body : List Char) : Prop :=
  nesting body + depth = 0 ∧ Stays depth body.dropLast

/-- No mark stands in front. -/
def Unmarked (c : Char) (cs : List Char) : Prop :=
  (c = '/' → cs.head? ≠ some '*') ∧ (c = '*' → cs.head? ≠ some '/')

@[simp] theorem nesting_nil : nesting [] = 0 :=
  rfl

@[simp] theorem nesting_opening (cs : List Char) : nesting ('/' :: '*' :: cs) = nesting cs + 1 :=
  rfl

@[simp] theorem nesting_closing (cs : List Char) : nesting ('*' :: '/' :: cs) = nesting cs - 1 :=
  rfl

theorem nesting_of_unmarked {c : Char} {cs : List Char} (h : Unmarked c cs) :
    nesting (c :: cs) = nesting cs := by
  rw [nesting]
  · rintro rest rfl rfl
    exact h.1 rfl rfl
  · rintro rest rfl rfl
    exact h.2 rfl rfl

theorem Unmarked.of_prefix {c : Char} {part cs : List Char} (h : Unmarked c cs) (hpart : part <+: cs) :
    Unmarked c part := by
  obtain ⟨more, rfl⟩ := hpart
  cases part with
  | nil => exact ⟨fun _ => nofun, fun _ => nofun⟩
  | cons d part => exact h

variable {depth : Nat} {c : Char} {body : List Char}

theorem stays_nil (h : 0 < depth) : Stays depth [] := by
  intro part hpart
  rw [List.prefix_nil.1 hpart]
  simp only [nesting_nil]
  omega

theorem Stays.char (h : Stays depth body) (hdepth : 0 < depth) (hc : Unmarked c body) :
    Stays depth (c :: body) := by
  intro part hpart
  rcases List.prefix_cons_iff.1 hpart with rfl | ⟨inner, rfl, hinner⟩
  · exact stays_nil hdepth [] List.prefix_rfl
  · rw [nesting_of_unmarked (hc.of_prefix hinner)]
    exact h inner hinner

/-- A mark counts only as a whole. -/
theorem stays_first (hdepth : 0 < depth) (c : Char) : Stays depth [c] :=
  (stays_nil hdepth).char hdepth ⟨fun _ => nofun, fun _ => nofun⟩

theorem Stays.opening (h : Stays (depth + 1) body) (hdepth : 0 < depth) :
    Stays depth ('/' :: '*' :: body) := by
  intro part hpart
  rcases List.prefix_cons_iff.1 hpart with rfl | ⟨tail, rfl, htail⟩
  · exact stays_nil hdepth [] List.prefix_rfl
  rcases List.prefix_cons_iff.1 htail with rfl | ⟨inner, rfl, hinner⟩
  · exact stays_first hdepth '/' _ List.prefix_rfl
  · have hinside := h inner hinner
    simp only [nesting_opening]
    omega

theorem Stays.closing (h : Stays depth body) : Stays (depth + 1) ('*' :: '/' :: body) := by
  have hdepth : 0 < depth + 1 := by omega
  intro part hpart
  rcases List.prefix_cons_iff.1 hpart with rfl | ⟨tail, rfl, htail⟩
  · exact stays_nil hdepth [] List.prefix_rfl
  rcases List.prefix_cons_iff.1 htail with rfl | ⟨inner, rfl, hinner⟩
  · exact stays_first hdepth '*' _ List.prefix_rfl
  · have hinside := h inner hinner
    simp only [nesting_closing]
    omega

theorem Leaves.ne_nil (h : Leaves depth body) (hdepth : 0 < depth) : body ≠ [] := by
  rintro rfl
  have hout := h.1
  simp only [nesting_nil] at hout
  omega

theorem Leaves.char (h : Leaves depth body) (hdepth : 0 < depth) (hc : Unmarked c body) :
    Leaves depth (c :: body) := by
  refine ⟨?_, ?_⟩
  · rw [nesting_of_unmarked hc]
    exact h.1
  · rw [List.dropLast_cons_of_ne_nil (h.ne_nil hdepth)]
    exact h.2.char hdepth (hc.of_prefix (List.dropLast_prefix body))

theorem Leaves.opening (h : Leaves (depth + 1) body) (hdepth : 0 < depth) :
    Leaves depth ('/' :: '*' :: body) := by
  have hbody : body ≠ [] := h.ne_nil (by omega)
  refine ⟨?_, ?_⟩
  · have hout := h.1
    simp only [nesting_opening]
    omega
  · rw [List.dropLast_cons_of_ne_nil (List.cons_ne_nil _ _), List.dropLast_cons_of_ne_nil hbody]
    exact h.2.opening hdepth

theorem Leaves.closing (h : Leaves depth body) (hdepth : 0 < depth) :
    Leaves (depth + 1) ('*' :: '/' :: body) := by
  refine ⟨?_, ?_⟩
  · have hout := h.1
    simp only [nesting_closing]
    omega
  · rw [List.dropLast_cons_of_ne_nil (List.cons_ne_nil _ _), List.dropLast_cons_of_ne_nil (h.ne_nil hdepth)]
    exact h.2.closing

theorem leaves_last : Leaves 1 ['*', '/'] :=
  ⟨rfl, stays_first Nat.one_pos '*'⟩

end comments

/-- What may stand in front of a token or of the end: blanks, comments up to the end of their line, and block
comments that are closed. Only the end can also come within a comment. -/
inductive Fills : List Char → List Char → Prop
  | nil {rest : List Char} : Fills [] rest
  | blank {c : Char} {cs rest : List Char} :
    Text.isBlank c → Fills cs rest → Fills (c :: cs) rest
  | line {body cs rest : List Char} :
    '\n' ∉ body → Fills cs rest → Fills ('/' :: '/' :: (body ++ '\n' :: cs)) rest
  | block {body cs rest : List Char} :
    Leaves 1 body → Fills cs rest → Fills ('/' :: '*' :: (body ++ cs)) rest
  | lastLine {body : List Char} : '\n' ∉ body → Fills ('/' :: '/' :: body) []
  | lastBlock {body : List Char} : Stays 1 body → Fills ('/' :: '*' :: body) []

namespace Gap

/-- The same from within a comment. -/
def Fills : Gap → List Char → List Char → Prop
  | blank, cs, rest => Monkey.Fills cs rest
  | line, cs, rest =>
    (∃ body gap, cs = body ++ '\n' :: gap ∧ '\n' ∉ body ∧ Monkey.Fills gap rest) ∨
      '\n' ∉ cs ∧ rest = []
  | block outer, cs, rest =>
    (∃ body gap, cs = body ++ gap ∧ Leaves (outer + 1) body ∧ Monkey.Fills gap rest) ∨
      Stays (outer + 1) cs ∧ rest = []

variable {cs rest : List Char}

theorem fills_line (h : line.Fills cs rest) : blank.Fills ('/' :: '/' :: cs) rest := by
  rcases h with ⟨body, gap, rfl, hbody, hgap⟩ | ⟨hbody, rfl⟩
  · exact .line hbody hgap
  · exact .lastLine hbody

theorem fills_block (h : (block 0).Fills cs rest) : blank.Fills ('/' :: '*' :: cs) rest := by
  rcases h with ⟨body, gap, rfl, hbody, hgap⟩ | ⟨hbody, rfl⟩
  · exact .block hbody hgap
  · exact .lastBlock hbody

theorem Fills.lineEnd (h : blank.Fills cs rest) : line.Fills ('\n' :: cs) rest :=
  .inl ⟨[], cs, rfl, nofun, h⟩

theorem Fills.lineChar {c : Char} (h : line.Fills cs rest) (hc : c ≠ '\n') : line.Fills (c :: cs) rest := by
  have hcons {body : List Char} (hbody : '\n' ∉ body) : '\n' ∉ c :: body :=
    List.not_mem_cons_of_ne_of_not_mem hc.symm hbody
  rcases h with ⟨body, gap, rfl, hbody, hgap⟩ | ⟨hbody, rfl⟩
  · exact .inl ⟨c :: body, gap, rfl, hcons hbody, hgap⟩
  · exact .inr ⟨hcons hbody, rfl⟩

variable {n : Nat}

theorem Fills.opening (h : (block (n + 1)).Fills cs rest) : (block n).Fills ('/' :: '*' :: cs) rest := by
  rcases h with ⟨body, gap, rfl, hbody, hgap⟩ | ⟨hbody, rfl⟩
  · exact .inl ⟨'/' :: '*' :: body, gap, rfl, hbody.opening n.succ_pos, hgap⟩
  · exact .inr ⟨hbody.opening n.succ_pos, rfl⟩

theorem Fills.closing (h : (block n).Fills cs rest) : (block (n + 1)).Fills ('*' :: '/' :: cs) rest := by
  rcases h with ⟨body, gap, rfl, hbody, hgap⟩ | ⟨hbody, rfl⟩
  · exact .inl ⟨'*' :: '/' :: body, gap, rfl, hbody.closing n.succ_pos, hgap⟩
  · exact .inr ⟨hbody.closing, rfl⟩

theorem Fills.blockEnd (h : blank.Fills cs rest) : (block 0).Fills ('*' :: '/' :: cs) rest :=
  .inl ⟨['*', '/'], cs, rfl, leaves_last, h⟩

theorem Fills.blockChar {c : Char} (h : (block n).Fills cs rest) (hc : Unmarked c (cs ++ rest)) :
    (block n).Fills (c :: cs) rest := by
  rcases h with ⟨body, gap, rfl, hbody, hgap⟩ | ⟨hbody, rfl⟩
  · refine .inl ⟨c :: body, gap, rfl, hbody.char n.succ_pos (hc.of_prefix ?_), hgap⟩
    rw [List.append_assoc]
    exact List.prefix_append body _
  · rw [List.append_nil] at hc
    exact .inr ⟨hbody.char n.succ_pos hc, rfl⟩

/-- From `cs` at `p` the cursor is reached by leaving out a gap. -/
def Passes (g : Gap) (cs : List Char) (p : Position) (c : Cursor) : Prop :=
  ∃ gap, cs = gap ++ c.rest ∧ c.position = p.afterAll gap ∧ g.Fills gap c.rest

theorem Passes.past {g g' : Gap} {p : Position} {c : Cursor} (front : List Char)
    (h : g.Passes cs (p.afterAll front) c)
    (hfills : ∀ gap, cs = gap ++ c.rest → g.Fills gap c.rest → g'.Fills (front ++ gap) c.rest) :
    g'.Passes (front ++ cs) p c := by
  obtain ⟨gap, hcs, hposition, hgap⟩ := h
  refine ⟨front ++ gap, ?_, ?_, hfills gap hcs hgap⟩
  · rw [hcs, List.append_assoc]
  · rw [hposition, Position.afterAll_append]

theorem skip_passes (g : Gap) (cs : List Char) (p : Position) : g.Passes cs p (skip g cs p) := by
  fun_induction skip g cs p with
  | case1 g p =>
    refine ⟨[], rfl, rfl, ?_⟩
    cases g with
    | blank => exact .nil
    | line => exact .inr ⟨List.not_mem_nil, rfl⟩
    | block n => exact .inr ⟨stays_nil n.succ_pos, rfl⟩
  | case2 cs p ih => exact ih.past ['/', '/'] fun gap _ => fills_line
  | case3 cs p ih => exact ih.past ['/', '*'] fun gap _ => fills_block
  | case4 c cs p _ _ hc ih => exact ih.past [c] fun gap _ => Monkey.Fills.blank hc
  | case5 c cs p => exact ⟨[], rfl, rfl, .nil⟩
  | case6 c cs p ih =>
    by_cases hc : c = '\n'
    · rw [if_pos hc] at ih ⊢
      subst hc
      exact ih.past ['\n'] fun gap _ => .lineEnd
    · rw [if_neg hc] at ih ⊢
      exact ih.past [c] fun gap _ hgap => hgap.lineChar hc
  | case7 n cs p ih => exact ih.past ['/', '*'] fun gap _ => .opening
  | case8 cs p ih => exact ih.past ['*', '/'] fun gap _ => .blockEnd
  | case9 n cs p ih => exact ih.past ['*', '/'] fun gap _ => .closing
  | case10 n c cs p hopening hlast hclosing ih =>
    refine ih.past [c] fun gap hcs hgap => hgap.blockChar ?_
    rw [← hcs]
    refine ⟨fun hc hhead => ?_, fun hc hhead => ?_⟩
    · obtain ⟨tail, htail⟩ := List.head?_eq_some_iff.1 hhead
      exact hopening tail hc htail
    · obtain ⟨tail, htail⟩ := List.head?_eq_some_iff.1 hhead
      cases n with
      | zero => exact hlast tail rfl hc htail
      | succ n => exact hclosing n tail rfl hc htail

end Gap

/-- The text of a token of the kind is the whole stretch that it stands for. A string has quotes around its text,
and the end has no stretch. -/
def Kind.IsSpelled (k : Kind) : Prop :=
  k ≠ .string ∧ k ≠ .eof

instance (k : Kind) : Decidable k.IsSpelled :=
  inferInstanceAs (Decidable (_ ∧ _))

/-- What one item says about the stretch of the text that it stands for, with what stands before and after
it: its places, its text without the quotes of a string, and what is wrong with it. -/
inductive Item.Covers (before stretch rest : List Char) : Item → Prop
  | token {kind : Kind} (hkind : kind.IsSpelled) :
    Covers before stretch rest
      (.ok ⟨kind, String.ofList stretch, .endOf before, .endOf (before ++ stretch)⟩)
  | string {text : List Char} (hstretch : stretch = '"' :: text ++ ['"']) (htext : '"' ∉ text) :
    Covers before stretch rest
      (.ok ⟨.string, String.ofList text, .endOf before, .endOf (before ++ stretch)⟩)
  | stray {c : Char} (hstretch : stretch = [c]) :
    Covers before stretch rest (.error (.unexpectedCharacter (.endOf before) c))
  | unterminated {text : List Char} (hstretch : stretch = '"' :: text) (htext : '"' ∉ text)
      (hrest : rest = []) :
    Covers before stretch rest (.error (.unterminatedString (.endOf before)))

/-- The text after `before` is a gap, then the stretch of one item after the other with a gap after each. -/
inductive Partition : List Char → List Char → List Item → Prop
  | ending {before gap : List Char} : Fills gap [] → Partition before gap []
  | item {before gap stretch rest : List Char} {item : Item} {items : List Item} :
    Fills gap (stretch ++ rest) → stretch ≠ [] → item.Covers (before ++ gap) stretch rest →
    Partition (before ++ gap ++ stretch) rest items →
    Partition before (gap ++ (stretch ++ rest)) (item :: items)

namespace Kind

theorem isSpelled_of_mem_symbols : ∀ p ∈ symbols, p.2.IsSpelled := by
  decide

theorem isSpelled_of_mem_keywords : ∀ p ∈ keywords, p.2.IsSpelled := by
  decide

theorem isSpelled_ofWord (word : List Char) : (ofWord word).IsSpelled := by
  rw [ofWord]
  cases h : keywords.lookup word with
  | none => decide
  | some k =>
    obtain ⟨before, after, hkeywords, -⟩ := List.lookup_eq_some_iff.1 h
    exact isSpelled_of_mem_keywords (word, k) (by rw [hkeywords]; simp)

theorem ofSymbol?_spec {c : Char} {rest : List Char} {k : Kind} {n : Nat}
    (h : ofSymbol? c rest = some (k, n)) : k.IsSpelled ∧ n ≤ rest.length := by
  have hdouble (hhead : rest.head? = some '=') : 1 ≤ rest.length := by
    obtain ⟨tail, rfl⟩ := List.head?_eq_some_iff.1 hhead
    simp
  rw [ofSymbol?] at h
  split at h
  · next hhead =>
    cases h
    exact ⟨by decide, hdouble hhead.1⟩
  split at h
  · next hhead =>
    cases h
    exact ⟨by decide, hdouble hhead.1⟩
  · obtain ⟨k', hk, hpair⟩ := Option.map_eq_some_iff.1 h
    cases hpair
    obtain ⟨before, after, hsymbols, -⟩ := List.lookup_eq_some_iff.1 hk
    exact ⟨isSpelled_of_mem_symbols (c, k) (by rw [hsymbols]; simp), Nat.zero_le _⟩

end Kind

/-- A text begins with as many of some characters as it can. -/
theorem exists_takeWhile (p : Char → Bool) (cs : List Char) :
    ∃ front rest, cs = front ++ rest ∧ cs.takeWhile p = front ∧ (∀ c ∈ front, p c) ∧
      ∀ c ∈ rest.head?, p c = false := by
  refine ⟨cs.takeWhile p, cs.dropWhile p, List.takeWhile_append_dropWhile.symm, rfl, ?_, ?_⟩
  · exact List.all_eq_true.1 List.all_takeWhile
  · intro c hc
    have hhead := List.head?_dropWhile_not p cs
    rwa [Option.mem_def.1 hc] at hhead

theorem Lexeme.read_covers {ch : Char} {cs : List Char} {lexeme : Lexeme} {n : Nat}
    (h : read ch cs = (lexeme, n)) (before : List Char) :
    n ≤ cs.length ∧
      (lexeme.item (.endOf before) (.endOf (before ++ ch :: cs.take n))).Covers before
        (ch :: cs.take n) (cs.drop n) := by
  rw [read] at h
  split at h
  · next hquote =>
    subst hquote
    obtain ⟨body, rest, rfl, hbody, hinside, hrest⟩ := exists_takeWhile (· ≠ '"') cs
    have hbare : '"' ∉ body := fun hmem => by simpa using hinside _ hmem
    dsimp only at h
    rw [hbody] at h
    cases rest with
    | nil =>
      rw [if_neg (by simp)] at h
      cases h
      refine ⟨by simp, .unterminated ?_ hbare ?_⟩
      · simp
      · simp
    | cons c after =>
      rw [if_pos (by simp)] at h
      cases h
      have hc : c = '"' := by simpa using hrest c rfl
      subst hc
      have htake : (body ++ '"' :: after).take (body.length + 1) = body ++ ['"'] := by
        rw [List.take_length_add_append]
        rfl
      refine ⟨by simp, ?_⟩
      rw [htake]
      exact .string rfl hbare
  split at h
  · obtain ⟨more, rest, rfl, hmore, -, -⟩ := exists_takeWhile Text.isDigit cs
    dsimp only at h
    rw [hmore] at h
    cases h
    refine ⟨by simp, ?_⟩
    rw [List.take_left]
    exact .token (by decide)
  split at h
  · obtain ⟨more, rest, rfl, hmore, -, -⟩ := exists_takeWhile Text.isWordChar cs
    dsimp only at h
    rw [hmore] at h
    cases h
    refine ⟨by simp, ?_⟩
    rw [List.take_left]
    exact .token (Kind.isSpelled_ofWord _)
  split at h
  · next kind k hsymbol =>
    cases h
    obtain ⟨hkind, hn⟩ := Kind.ofSymbol?_spec hsymbol
    exact ⟨hn, .token hkind⟩
  · cases h
    exact ⟨Nat.zero_le _, .stray rfl⟩

theorem Cursor.drop_endOf (n : Nat) (before rest : List Char) (ch : Char) :
    drop (n + 1) ⟨ch :: rest, .endOf before⟩ =
      ⟨rest.drop n, .endOf (before ++ ch :: rest.take n)⟩ := by
  have hposition := position_drop (n + 1) ⟨ch :: rest, .endOf before⟩
  rw [Position.afterAll_endOf] at hposition
  calc
    _ = ⟨_, _⟩ := congrArg (Cursor.mk · _) (rest_drop (n + 1) ⟨ch :: rest, .endOf before⟩)
    _ = _ := congrArg (Cursor.mk _) hposition

/-- The first item stands between two gaps. -/
theorem Cursor.next?_covers (before cs : List Char) :
    Fills cs [] ∧ next? ⟨cs, .endOf before⟩ = none ∧
        skipGap ⟨cs, .endOf before⟩ = ⟨[], .endOf (before ++ cs)⟩ ∨
      ∃ gap stretch rest item, cs = gap ++ (stretch ++ rest) ∧ Fills gap (stretch ++ rest) ∧
        stretch ≠ [] ∧ item.Covers (before ++ gap) stretch rest ∧
        next? ⟨cs, .endOf before⟩ = some (item, ⟨rest, .endOf (before ++ gap ++ stretch)⟩) := by
  obtain ⟨gap, hcs, hposition, hgap⟩ := Gap.skip_passes .blank cs (.endOf before)
  rw [Position.afterAll_endOf] at hposition
  have hskip : skipGap ⟨cs, .endOf before⟩ = Gap.skip .blank cs (.endOf before) := rfl
  unfold next?
  rw [hskip]
  generalize Gap.skip .blank cs (.endOf before) = c at hcs hposition hgap
  obtain ⟨rest, position⟩ := c
  dsimp only at hcs hposition hgap
  subst hcs hposition
  cases rest with
  | nil =>
    rw [List.append_nil]
    exact .inl ⟨hgap, rfl, rfl⟩
  | cons ch rest =>
    obtain ⟨⟨lexeme, n⟩, hread⟩ : ∃ r, Lexeme.read ch rest = r := ⟨_, rfl⟩
    obtain ⟨hn, hcovers⟩ := Lexeme.read_covers hread (before ++ gap)
    have hsplit : ch :: rest = (ch :: rest.take n) ++ rest.drop n := by
      rw [List.cons_append, List.take_append_drop]
    refine .inr ⟨gap, ch :: rest.take n, rest.drop n, _, ?_, ?_, List.cons_ne_nil _ _, hcovers, ?_⟩
    · rw [← hsplit]
    · rw [← hsplit]
      exact hgap
    · simp only [hread, drop_endOf]

theorem items_partition (before cs : List Char) :
    Partition before cs (Cursor.items ⟨cs, .endOf before⟩) := by
  rw [Cursor.items_eq]
  rcases Cursor.next?_covers before cs with ⟨hgap, hnext, -⟩ |
    ⟨gap, stretch, rest, item, hcs, hgap, hstretch, hitem, hnext⟩
  · rw [hnext]
    exact .ending hgap
  · rw [hnext, hcs]
    have : rest.length < cs.length := Cursor.length_lt_of_next? hnext
    exact .item hgap hstretch hitem (items_partition (before ++ gap ++ stretch) rest)
termination_by cs.length

namespace Cursor

theorem scanTimes_nil (p : Position) (n : Nat) :
    scanTimes n ⟨[], p⟩ = List.replicate n (.ok (.eof p)) := by
  have hscan : scan ⟨[], p⟩ = (.ok (.eof p), ⟨[], p⟩) := rfl
  induction n with
  | zero => rfl
  | succ n ih => rw [scanTimes, hscan, ih, List.replicate_succ]

/-- The scanner yields the items, and then the end as often as it is asked. -/
theorem scanTimes_items (before cs : List Char) (n : Nat) :
    scanTimes ((items ⟨cs, .endOf before⟩).length + n) ⟨cs, .endOf before⟩ =
      items ⟨cs, .endOf before⟩ ++ List.replicate n (.ok (.eof (.endOf (before ++ cs)))) := by
  rw [items_eq]
  rcases next?_covers before cs with ⟨-, hnext, hskip⟩ |
    ⟨gap, stretch, rest, item, hcs, -, -, -, hnext⟩
  · have hscan : scan ⟨cs, .endOf before⟩ =
        (.ok (.eof (.endOf (before ++ cs))), ⟨[], .endOf (before ++ cs)⟩) := by
      rw [scan, hnext, hskip]
      rfl
    rw [hnext, List.nil_append, List.length_nil, Nat.zero_add]
    cases n with
    | zero => rfl
    | succ n => rw [scanTimes, hscan, scanTimes_nil, List.replicate_succ]
  · have : rest.length < cs.length := length_lt_of_next? hnext
    have hscan : scan ⟨cs, .endOf before⟩ = (item, ⟨rest, .endOf (before ++ gap ++ stretch)⟩) := by
      rw [scan, hnext]
      rfl
    have hend : before ++ gap ++ stretch ++ rest = before ++ cs := by
      rw [hcs, List.append_assoc, List.append_assoc]
    rw [hnext, List.length_cons, Nat.add_right_comm, scanTimes, hscan, List.cons_append, ← hend]
    exact congrArg (item :: ·) (scanTimes_items (before ++ gap ++ stretch) rest n)
termination_by cs.length

end Cursor

theorem Partition.not_eof {before cs : List Char} {items : List Item} (h : Partition before cs items) :
    .eof ∉ (Parse.tokensOf items).map (·.kind) := by
  induction h with
  | ending => exact List.not_mem_nil
  | item _ _ hitem _ ih =>
    cases hitem with
    | token hkind => exact List.not_mem_cons_of_ne_of_not_mem hkind.2.symm ih
    | string => exact List.not_mem_cons_of_ne_of_not_mem (nofun : Kind.eof ≠ .string) ih
    | stray | unterminated => exact ih

/-- Scanning cuts a source into the stretches of its items and the gaps between them. The end comes when all
items have been yielded and then again and again, and no coordinate is greater than the length of the source
by more than one. -/
theorem scan_partitions (source : String) :
    Partition [] source.toList (itemsOf source) ∧
      .eof ∉ (Parse.tokensOf (itemsOf source)).map (·.kind) ∧
      (∀ n, (Cursor.ofText source).scanTimes ((itemsOf source).length + n) =
        itemsOf source ++ List.replicate n (.ok (.eof (.endOf source.toList)))) ∧
      ∀ n, (Position.endOf (source.toList.take n)).line ≤ source.length + 1 ∧
        (Position.endOf (source.toList.take n)).column ≤ source.length + 1 := by
  have hpartition : Partition [] source.toList (itemsOf source) := items_partition [] source.toList
  refine ⟨hpartition, hpartition.not_eof, Cursor.scanTimes_items [] source.toList, fun n => ?_⟩
  obtain ⟨hline, hcolumn⟩ := Position.endOf_le (source.toList.take n)
  have hlength : (source.toList.take n).length ≤ source.length := by
    rw [List.length_take, String.length_toList]
    omega
  omega

end Monkey
