import Mathlib
import Monkey.Proofs.Completions
import Monkey.Proofs.Meaning

namespace Monkey

open Parse

/-- Any tokens with texts of their kinds can be written, with blanks between them. -/
theorem exists_written {vs : List Token} (h : ∀ v ∈ vs, v.IsWritable) : ∃ cs, Written cs vs := by
  induction vs with
  | nil => exact ⟨[], .nil⟩
  | cons v vs ih =>
    obtain ⟨hv, hvs⟩ := List.forall_mem_cons.1 h
    obtain ⟨cs, hcs⟩ := ih hvs
    cases vs with
    | nil => exact ⟨_, .one hv⟩
    | cons u us =>
      have hblank : Spacing [' '] := .blank (by decide) .nil
      exact ⟨_, .cons hv (.inl ⟨⟨' ', rfl, by decide⟩, hblank⟩) hcs⟩

/-- After the end of a token a text can go on in another way, and the tokens up to there stay what they are. -/
theorem Cursor.items_cut {cs before : List Char} {us : List Token} {items : List Item}
    (h : Cursor.items ⟨cs, .endOf before⟩ = us.map .ok ++ items) :
    ∃ front, front <+: cs ∧ ∀ more, Cursor.items ⟨front ++ ' ' :: more, .endOf before⟩ =
      us.map .ok ++ Cursor.items ⟨' ' :: more, .endOf (before ++ front)⟩ := by
  induction us generalizing cs before with
  | nil =>
    refine ⟨[], List.nil_prefix, fun more => ?_⟩
    rw [List.append_nil]
    rfl
  | cons t us ih =>
    rw [items_eq] at h
    cases hnext : next? ⟨cs, .endOf before⟩ with
    | none =>
      rw [hnext] at h
      exact nomatch h
    | some result =>
      obtain ⟨item, c⟩ := result
      rw [hnext] at h
      obtain ⟨rfl, hrest⟩ := List.cons.inj h
      obtain ⟨sep, rest, rfl, hsep, ht, hends⟩ := written_of_next? hnext
      rw [next?_written hsep ht hends, Option.some_inj, Prod.mk.injEq, Except.ok.injEq] at hnext
      obtain ⟨htoken, rfl⟩ := hnext
      obtain ⟨front, hfront, hmore⟩ := ih hrest
      refine ⟨sep ++ (t.written ++ front), ?_, fun more => ?_⟩
      · exact List.prefix_append_right_inj _ |>.2 (List.prefix_append_right_inj _ |>.2 hfront)
      · have hends' : ∀ ch ∈ (front ++ ' ' :: more).head?, t.kind.endsAt ch := by
          intro ch hch
          cases front with
          | nil =>
            obtain rfl := Option.some_inj.1 hch
            exact t.kind.endsAt_of_isBlank (by decide)
          | cons d front =>
            obtain ⟨tail, rfl⟩ := hfront
            exact hends ch hch
        rw [List.append_assoc, List.append_assoc, items_eq, next?_written hsep ht hends', htoken]
        dsimp only
        rw [hmore]
        simp only [List.map_cons, List.cons_append, List.append_assoc]

/-- Some text that is read without errors begins with these tokens. -/
def Viable (ts : List Token) : Prop :=
  ∃ source more, (parse source).diagnostics = [] ∧ itemsOf source = (ts ++ more).map .ok

theorem Viable.of_prefix {ts us : List Token} (h : Viable ts) (hus : us <+: ts) : Viable us := by
  obtain ⟨source, more, hdiagnostics, hitems⟩ := h
  obtain ⟨tail, rfl⟩ := hus
  exact ⟨source, tail ++ more, hdiagnostics, by rw [hitems, List.append_assoc]⟩

/-- What can be completed with some tokens can be completed with some text. -/
theorem viable_of_completes {source : String} {us x : List Token} (h : itemsOf source = (us ++ x).map .ok)
    (hus : Completes AreSentences us) : Viable us := by
  obtain ⟨vs, hvs, stmts, hstmts⟩ := hus
  obtain ⟨body, hbody⟩ := exists_written hvs
  rw [List.map_append] at h
  obtain ⟨front, -, hcut⟩ := @Cursor.items_cut _ [] _ _ h
  have hblank : Spacing [' '] := .blank (by decide) .nil
  obtain ⟨ts, hts, hspelled⟩ := hbody.items hblank front
  have hitems : itemsOf (String.ofList (front ++ ' ' :: body)) = (us ++ ts).map .ok := by
    rw [itemsOf, Cursor.ofText, String.toList_ofList, List.map_append, ← hts]
    exact hcut body
  refine ⟨_, ts, ?_, hitems⟩
  have hbare : (us ++ ts).map Token.bare = (us ++ vs).map .bare := by
    rw [List.map_append, List.map_append, bare_eq_of_spelled hspelled]
  rw [(parse_of_bare hitems).1, hbare, (alike_program (us ++ vs)).2.2.1, hstmts.program_yields.2.2]
  rfl

/-- With these tokens in front every text is wrong, since the parser stops there. -/
theorem not_viable_of_stopsAt {us x : List Token} {t : Token}
    (h : StopsAt (fun ts => (program ts).report) us (t :: x)) : ¬ Viable (us ++ [t]) := by
  rintro ⟨source, more, hdiagnostics, hitems⟩
  obtain ⟨e, -, hstop⟩ := h
  have htells : (program (us ++ t :: more)).log.head?.map (·.diagnostic) = some (.syntactic e) :=
    hstop (t :: more) rfl
  rw [← List.append_cons] at hitems
  rw [parse, hitems, ofItems_map_ok, List.map_eq_nil_iff] at hdiagnostics
  rw [hdiagnostics] at htells
  cases htells

/-- The message says that this kind of token has been found and none can be used there. -/
def Complains (message : String) (found : Kind) : Prop :=
  message = "no prefix parse function for " ++ found.name ++ " found" ∨
    ∃ want : Kind,
      message = "expected next token to be " ++ want.name ++ ", got " ++ found.name ++ " instead"

/-- The message is about this token. Of a number that is too large it may tell the text. -/
def ComplainsOf (message : String) (t : Token) : Prop :=
  Complains message t.kind ∨
    t.kind = .int ∧ maxNumeral < Text.value t.text.toList ∧ message = "could not parse " ++ t.text ++ " as integer"

theorem Parse.Blames.complains {e : SyntaxError} (h : Blames e []) : Complains e.message .eof := by
  cases h with
  | noOperand => exact .inl rfl
  | unexpected want => exact .inr ⟨want, rfl⟩

theorem Parse.Blames.complainsOf {e : SyntaxError} {t : Token} {ts : List Token} (h : Blames e (t :: ts)) :
    ComplainsOf e.message t := by
  cases h with
  | noOperand => exact .inl (.inl rfl)
  | unexpected want => exact .inl (.inr ⟨want, rfl⟩)
  | numberTooLarge hk hvalue => exact .inr ⟨hk, hvalue, rfl⟩

/-- The token comes after `us`, and it is the first one up to which the tokens are not viable. -/
structure FirstWrong (ts us : List Token) (t : Token) : Prop where
  comes : us ++ [t] <+: ts
  viable : ∀ front, front <+: us → Viable front
  wrong : ¬ Viable (us ++ [t])

namespace FirstWrong

variable {ts us us' : List Token} {t t' : Token}

theorem length_le (h : FirstWrong ts us t) (h' : FirstWrong ts us' t') : us'.length ≤ us.length := by
  refine Nat.le_of_not_lt fun hlt => h.wrong (h'.viable _ ?_)
  have hus' : us' <+: ts := (List.prefix_append us' [t']).trans h'.comes
  refine List.prefix_of_prefix_length_le h.comes hus' ?_
  rw [List.length_append, List.length_singleton]
  exact hlt

theorem unique (h : FirstWrong ts us t) (h' : FirstWrong ts us' t') : us = us' ∧ t = t' := by
  have hlength : us.length = us'.length := Nat.le_antisymm (h'.length_le h) (h.length_le h')
  have hboth : (us ++ [t]).length = (us' ++ [t']).length := by
    rw [List.length_append, List.length_append, hlength]
    rfl
  have hsame := (List.prefix_of_prefix_length_le h.comes h'.comes hboth.le).eq_of_length hboth
  obtain ⟨hus, ht⟩ := List.append_inj hsame hlength
  exact ⟨hus, List.singleton_inj.1 ht⟩

end FirstWrong

/-- The first error tells of the end if all that stands before it could be right, and else of the first token that
could not. -/
theorem first_error_tells_first_wrong {source : String} {ts : List Token} (h : itemsOf source = ts.map .ok)
    (hwrong : (parse source).diagnostics ≠ []) :
    ∃ message, (parse source).diagnostics.head?.map (·.message) = some message ∧
      (Viable ts → Complains message .eof) ∧
      (¬ Viable ts →
        (∃ us t, FirstWrong ts us t) ∧ ∀ us t, FirstWrong ts us t → ComplainsOf message t) := by
  have hlog : (parse source).diagnostics = (program ts).log.map (·.diagnostic) := by
    rw [parse, h, ofItems_map_ok]
  -- It is decided after `us`: these tokens can be completed, and none can be with the next one, which is blamed.
  obtain ⟨us, x, rfl, ⟨stmts, hread⟩ | ⟨hus, hstop⟩⟩ := program_verdict ts
  · have hlog' : (program (us ++ x)).log = [] := congrArg Report.log (hread x rfl)
    rw [hlog, hlog'] at hwrong
    exact absurd rfl hwrong
  have hviable := viable_of_completes h hus
  obtain ⟨e, hblames, htells⟩ := hstop
  have hfirst : (program (us ++ x)).log.head?.map (·.diagnostic) = some (.syntactic e) := htells x rfl
  refine ⟨e.message, ?_, ?_⟩
  · rw [hlog, List.head?_map, hfirst]
    rfl
  cases x with
  | nil =>
    rw [List.append_nil]
    exact ⟨fun _ => hblames.complains, fun hnot => absurd hviable hnot⟩
  | cons t x =>
    have hnot : ¬ Viable (us ++ [t]) := not_viable_of_stopsAt ⟨e, hblames, htells⟩
    have hcomes : us ++ [t] <+: us ++ t :: x := ⟨x, (List.append_cons us t x).symm⟩
    have hfirst : FirstWrong (us ++ t :: x) us t :=
      ⟨hcomes, fun front hfront => hviable.of_prefix hfront, hnot⟩
    refine ⟨fun hall => absurd (hall.of_prefix hcomes) hnot, fun _ => ⟨⟨us, t, hfirst⟩, ?_⟩⟩
    intro us' t' hfirst'
    obtain ⟨-, rfl⟩ := hfirst.unique hfirst'
    exact hblames.complainsOf

theorem first_error_tells_first_wrong_of_brace :
    let source := "if (a) \x7b b + 99999999999999999999 \x7d c )"
    let ts := tokensOf (itemsOf source)
    itemsOf source = ts.map .ok ∧ (parse source).diagnostics ≠ [] ∧
      ∃ message, (parse source).diagnostics.head?.map (·.message) = some message ∧
        (Viable ts → Complains message .eof) ∧
        (¬ Viable ts →
          (∃ us t, FirstWrong ts us t) ∧ ∀ us t, FirstWrong ts us t → ComplainsOf message t) := by
  intro source ts
  have h : itemsOf source = ts.map .ok := by
    dsimp only [ts, source]
    cbv
  have hwrong : (parse source).diagnostics ≠ [] := by
    dsimp only [source]
    cbv
    decide
  exact ⟨h, hwrong, first_error_tells_first_wrong h hwrong⟩

end Monkey
