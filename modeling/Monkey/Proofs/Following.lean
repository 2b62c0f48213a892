import Monkey.Proofs.Parser

namespace Monkey.Parser

open Parse (Attempt Reading Outcome Fault Level afterSemicolon front)

variable {α β : Type} {m k n depth : Nat} {s s' : Parser} {ts : List Token}

section actions

variable {x : Parsing α} {f : α → Parsing β}

theorem bind_of_some {a : α} (h : x s = some (some a, s')) : (x >>= f) s = f a s' := by
  change (x s).bind _ = _
  rw [h]
  rfl

theorem bind_of_none (h : x s = some (none, s')) : (x >>= f) s = some (none, s') := by
  change (x s).bind _ = _
  rw [h]
  rfl

theorem attempt_eq {r : Option α} (h : x s = some (r, s')) : attempt x s = some (some r, s') := by
  rw [attempt, h]
  rfl

end actions

/-- How an attempt ends, where `Done` tells of the place after a phrase that has been read. -/
def Ends (Done : Parser → List Token → Nat → Prop) (n : Nat) : Outcome α → Option α → Parser → Prop
  | .done a rest, r, s => r = some a ∧ Done s rest n
  | .refused rest, r, s => r = none ∧ s.At rest n
  | .missing rest, r, s => r = none ∧ s.Before rest n

/-- From where it is, the parser does what the attempt does with its tokens. -/
def Follows (Done : Parser → List Token → Nat → Prop) (x : Parsing α) (s : Parser) (n : Nat)
    (p : Attempt α m) : Prop :=
  ∃ r s', x s = some (r, s') ∧ Reports s s' p.log ∧ Ends Done (n + p.taken) p.outcome r s'

section following

variable {Done : Parser → List Token → Nat → Prop} {x : Parsing α} {p : Attempt α m}

theorem Follows.of_get {f : Parser → Parsing α} (h : Follows Done (f s) s n p) :
    Follows Done (get >>= f) s n p :=
  h

theorem Follows.past (h : Follows Done x s (n + 1) p) : Follows Done x s n p.past := by
  obtain ⟨r, s', hx, hreports, hends⟩ := h
  refine ⟨r, s', hx, hreports, ?_⟩
  rwa [Nat.add_assoc, Nat.add_comm 1] at hends

theorem Follows.next (hs : s.Ahead ts n) (h : ∀ s', s'.At ts n → Follows Done x s' n p) :
    Follows Done (Parser.next >>= fun _ => x) s n p := by
  obtain ⟨s₁, hnext, hat, hreports⟩ := hs.next
  obtain ⟨r, s₂, hx, hreports', hends⟩ := h s₁ hat
  exact ⟨r, s₂, (bind_of_some hnext).trans hx, hreports.trans hreports', hends⟩

theorem Follows.andThen {f : α → Parsing β}
    {next : α → (rest : List Token) → rest.length ≤ m → Attempt β rest.length} {le : m ≤ k}
    (h : Follows Before x s n p)
    (hnext : ∀ a rest hle s' n', s'.Before rest n' → Follows Done (f a) s' n' (next a rest hle)) :
    Follows Done (x >>= f) s n (p.andThen next le) := by
  obtain ⟨outcome, log, taken, short⟩ := p
  obtain ⟨r, s₁, hx, hreports, hends⟩ := h
  cases outcome with
  | done a rest =>
    obtain ⟨rfl, hbefore⟩ := hends
    obtain ⟨r, s₂, hf, hreports', hends'⟩ := hnext a rest short s₁ _ hbefore
    refine ⟨r, s₂, (bind_of_some hx).trans hf, hreports.trans hreports', ?_⟩
    rwa [Nat.add_assoc] at hends'
  | refused rest =>
    obtain ⟨rfl, hat⟩ := hends
    exact ⟨none, s₁, bind_of_none hx, hreports, rfl, hat⟩
  | missing rest =>
    obtain ⟨rfl, hbefore⟩ := hends
    exact ⟨none, s₁, bind_of_none hx, hreports, rfl, hbefore⟩

theorem Follows.map (f : α → β) (h : Follows Done x s n p) :
    Follows Done (x >>= fun a => pure (f a)) s n (p.map f) := by
  obtain ⟨outcome, log, taken, short⟩ := p
  obtain ⟨r, s₁, hx, hreports, hends⟩ := h
  cases outcome with
  | done a rest =>
    obtain ⟨rfl, hdone⟩ := hends
    exact ⟨some (f a), s₁, bind_of_some hx, hreports, rfl, hdone⟩
  | refused rest =>
    obtain ⟨rfl, hat⟩ := hends
    exact ⟨none, s₁, bind_of_none hx, hreports, rfl, hat⟩
  | missing rest =>
    obtain ⟨rfl, hbefore⟩ := hends
    exact ⟨none, s₁, bind_of_none hx, hreports, rfl, hbefore⟩

theorem follows_done {a : α} (hs : Done s ts n) : Follows Done (pure a) s n (Attempt.done a ts) :=
  ⟨some a, s, rfl, Reports.refl s, rfl, hs⟩

/-- Nothing begins with the current token. -/
theorem follows_refused (hs : s.At ts n) (e : SyntaxError) :
    Follows Done (report e >>= fun _ => (failure : Parsing α)) s n (Attempt.refused e ts) := by
  obtain ⟨s₁, hreport, hahead, hcurrent, hreports⟩ := hs.tail.report e
  rw [List.length_tail] at hreports
  refine ⟨none, s₁, bind_of_some hreport, hreports, rfl, ?_, hahead, hs.proper⟩
  rw [hcurrent]
  exact hs.shows

theorem Before.report (hs : s.Before ts n) (e : SyntaxError) :
    ∃ s', Parser.report e s = some (some (), s') ∧ s'.Before ts n ∧
      Reports s s' [⟨.syntactic e, ts.length⟩] := by
  obtain ⟨s₁, hreport, hahead, hcurrent, hreports⟩ := hs.toAhead.report e
  exact ⟨s₁, hreport, ⟨hahead, hcurrent ▸ hs.goes, hcurrent ▸ hs.stops⟩, hreports⟩

variable {want : Kind}
  {next : Token → (rest : List Token) → rest.length < ts.length → Attempt α rest.length}

theorem Follows.congr {y : Parsing α} (hxy : x s = y s) (h : Follows Done y s n p) :
    Follows Done x s n p := by
  rwa [Follows, hxy]

variable {want : Kind}

/-- The token ahead is of the wanted kind, and is taken. -/
theorem follows_take {t : Token} {rest : List Token}
    {next : Token → (us : List Token) → us.length < (t :: rest).length → Attempt α us.length}
    (hs : s.Ahead (t :: rest) n) (ht : t.kind = want)
    (hnext : ∀ s', s'.At (t :: rest) n → Follows Done x s' (n + 1) (next t rest (Nat.lt_succ_self _))) :
    Follows Done (Parser.next >>= fun _ => x) s n (Parse.expect want (t :: rest) next) := by
  rw [Parse.expect, if_pos ht]
  exact Follows.next hs fun s' hat => (hnext s' hat).past

theorem expect_of_eq {f : Token → Parsing α} (h : s.ahead.kind = want) :
    (expect want >>= f) s = (Parser.next >>= fun _ => f s.ahead) s := by
  change ((if s.ahead.kind = want then _ else _) >>= f) s = _
  rw [if_pos h, bind_assoc]
  rfl

theorem expect_of_ne (h : s.ahead.kind ≠ want) :
    expect want s = (report (.unexpected want s.ahead.kind) >>= fun _ => failure) s := by
  change (if s.ahead.kind = want then (Parser.next >>= fun _ => pure s.ahead : Parsing Token)
    else report (.unexpected want s.ahead.kind) >>= fun _ => failure) s = _
  rw [if_neg h]

theorem follows_expect {f : Token → Parsing α}
    {next : Token → (rest : List Token) → rest.length < ts.length → Attempt α rest.length}
    (hs : s.Before ts n)
    (hnext : ∀ t rest hlt s' n', s'.Before rest n' → Follows Done (f t) s' n' (next t rest hlt))
    (hgoes : want ≠ .semicolon := by decide) (hends : want ≠ .eof := by decide) :
    Follows Done (expect want >>= f) s n (Parse.expect want ts next) := by
  have hkind : s.ahead.kind = front ts := hs.shows.kind_eq
  by_cases hfront : front ts = want
  · cases ts with
    | nil => exact absurd hfront.symm hends
    | cons t rest =>
      have ht : t.kind = want := hfront
      have hahead : s.ahead = t := hs.shows
      refine Follows.congr (expect_of_eq (hkind.trans hfront)) (follows_take hs.toAhead ht fun s' hat => ?_)
      rw [hahead]
      exact hnext t rest _ s' _ (hat.before ht hgoes)
  · obtain ⟨s₁, hreport, hbefore, hreports⟩ := hs.report (.unexpected want (front ts))
    have hexpect : expect want s = some (none, s₁) := by
      rw [expect_of_ne (hkind ▸ hfront), hkind]
      exact bind_of_some hreport
    have hmissing : Parse.expect want ts next = .missing want ts := by
      cases ts with
      | nil => rfl
      | cons t rest => exact if_neg hfront
    rw [hmissing]
    exact ⟨none, s₁, bind_of_none hexpect, hreports, rfl, hbefore⟩

theorem follows_doneWith {a : α} (hs : s.Before ts n) (hfront : front ts = want)
    (hgoes : want ≠ .semicolon := by decide) (hends : want ≠ .eof := by decide) :
    Follows Before (Parser.next >>= fun _ => pure a) s n (Attempt.doneWith a ts) := by
  cases ts with
  | nil => exact absurd hfront.symm hends
  | cons t rest =>
    have ht : t.kind = want := hfront
    refine Follows.next hs.toAhead fun s' hat => ?_
    exact ⟨some a, s', rfl, Reports.refl s', rfl, hat.before ht hgoes⟩

end following

/-- The parser reads what is read to its end whatever the tokens are. -/
def Completes (Done : Parser → List Token → Nat → Prop) (x : Parsing α) (s : Parser) (n : Nat)
    (p : Reading α m) : Prop :=
  ∃ s', x s = some (some p.value, s') ∧ Reports s s' p.log ∧ Done s' p.rest (n + p.taken)

section completing

variable {Done : Parser → List Token → Nat → Prop} {x : Parsing α}

theorem Completes.of_get {f : Parser → Parsing α} {p : Reading α m} (h : Completes Done (f s) s n p) :
    Completes Done (get >>= f) s n p :=
  h

theorem Completes.of_attempt_get {f : Parser → Parsing α} {p : Reading (Option α) m}
    (h : Completes Done (attempt (f s)) s n p) : Completes Done (attempt (get >>= f)) s n p :=
  h

theorem Completes.past {p : Reading α m} (h : Completes Done x s (n + 1) p) :
    Completes Done x s n p.past := by
  obtain ⟨s', hx, hreports, hdone⟩ := h
  refine ⟨s', hx, hreports, ?_⟩
  rwa [Nat.add_assoc, Nat.add_comm 1] at hdone

theorem Completes.andTry {f : α → Parsing β} {p : Reading α m}
    {next : α → (rest : List Token) → rest.length ≤ m → Attempt β rest.length} {le : m ≤ k}
    (h : Completes Before x s n p)
    (hnext : ∀ a rest hle s' n', s'.Before rest n' → Follows Done (f a) s' n' (next a rest hle)) :
    Follows Done (x >>= f) s n (p.andTry next le) := by
  obtain ⟨s₁, hx, hreports, hbefore⟩ := h
  obtain ⟨r, s₂, hf, hreports', hends⟩ := hnext p.value p.rest p.short s₁ _ hbefore
  refine ⟨r, s₂, (bind_of_some hx).trans hf, hreports.trans hreports', ?_⟩
  rwa [Nat.add_assoc] at hends

/-- One statement after the other, and a token between them. -/
theorem Completes.andThen {f : α → Parsing β} {p : Reading α m}
    {next : α → (rest : List Token) → rest.length ≤ m → Reading β rest.length} {le : m ≤ k}
    (h : Completes Ahead x s n p)
    (hnext : ∀ a rest hle s' n', s'.At rest n' → Completes Done (f a) s' n' (next a rest hle)) :
    Completes Done (x >>= fun a => Parser.next >>= fun _ => f a) s n (p.andThen next le) := by
  obtain ⟨s₁, hx, hreports, hahead⟩ := h
  obtain ⟨s₂, hstep, hat, hreports₁⟩ := hahead.next
  obtain ⟨s₃, hf, hreports', hdone⟩ := hnext p.value p.rest p.short s₂ _ hat
  refine ⟨s₃, ?_, hreports.trans (hreports₁.trans hreports'), ?_⟩
  · rw [bind_of_some hx, bind_of_some hstep, hf]
    rfl
  · rwa [Nat.add_assoc] at hdone

theorem Completes.map (f : α → β) {p : Reading α m} (h : Completes Done x s n p) :
    Completes Done (x >>= fun a => pure (f a)) s n (p.map f) := by
  obtain ⟨s', hx, hreports, hdone⟩ := h
  exact ⟨s', bind_of_some hx, hreports, hdone⟩

end completing

-- What follows a statement

theorem synchronize_stops (h : s.current.kind = .semicolon ∨ s.current.kind = .eof) :
    synchronize (depth + 1) s = some (some (), s) := by
  change (if s.current.kind = .semicolon ∨ s.current.kind = .eof then (pure () : Parsing Unit)
    else Parser.next >>= fun _ => synchronize depth) s = _
  rw [if_pos h]
  rfl

theorem synchronize_goes (h : ¬(s.current.kind = .semicolon ∨ s.current.kind = .eof)) :
    synchronize (depth + 1) s = (Parser.next >>= fun _ => synchronize depth) s := by
  change (if s.current.kind = .semicolon ∨ s.current.kind = .eof then (pure () : Parsing Unit)
    else Parser.next >>= fun _ => synchronize depth) s = _
  rw [if_neg h]

/-- What is skipped ends with the next semicolon or at the end. -/
theorem At.synchronize (hs : s.At ts n) (hdepth : ts.length < depth) :
    ∃ s', Parser.synchronize depth s = some (some (), s') ∧ Reports s s' [] ∧
      s'.Ahead (afterSemicolon ts) (n + (ts.takeWhile (·.kind ≠ .semicolon)).length + 1) := by
  induction ts generalizing s n depth with
  | nil =>
    cases depth with
    | zero => exact absurd hdepth (Nat.not_lt_zero _)
    | succ depth => exact ⟨s, synchronize_stops (.inr hs.shows), Reports.refl s, hs.tail⟩
  | cons t ts ih =>
    cases depth with
    | zero => exact absurd hdepth (Nat.not_lt_zero _)
    | succ depth =>
      have hkind : s.current.kind = t.kind := hs.shows.kind_eq
      by_cases ht : t.kind = .semicolon
      · refine ⟨s, synchronize_stops (.inl (hkind.trans ht)), Reports.refl s, ?_⟩
        rw [afterSemicolon, List.dropWhile_cons_of_neg (by simpa using ht),
          List.takeWhile_cons_of_neg (by simpa using ht)]
        exact hs.tail
      · have hgoes : ¬(s.current.kind = .semicolon ∨ s.current.kind = .eof) := by
          rw [hkind]
          exact not_or_intro ht (hs.proper t List.mem_cons_self)
        obtain ⟨s₁, hnext, hat, hreports⟩ := hs.ahead.next
        obtain ⟨s₂, hsynchronize, hreports', hahead⟩ := ih hat (Nat.lt_of_succ_lt_succ hdepth)
        refine ⟨s₂, ?_, hreports.trans hreports', ?_⟩
        · rw [synchronize_goes hgoes, bind_of_some hnext, hsynchronize]
        · rw [afterSemicolon, List.dropWhile_cons_of_pos (by simpa using ht),
            List.takeWhile_cons_of_pos (by simpa using ht), List.length_cons]
          exact hahead.mono (by omega)

theorem Before.synchronize (hs : s.Before ts n) (hdepth : ts.length + 1 < depth) :
    ∃ s', Parser.synchronize depth s = some (some (), s') ∧ Reports s s' [] ∧
      s'.Ahead (afterSemicolon ts) (n + (ts.takeWhile (·.kind ≠ .semicolon)).length + 1) := by
  cases depth with
  | zero => exact absurd hdepth (Nat.not_lt_zero _)
  | succ depth =>
    by_cases hend : s.current.kind = .eof
    · -- an unclosed block has come to the end already
      obtain rfl := hs.stops hend
      exact ⟨s, synchronize_stops (.inr hend), Reports.refl s, hs.toAhead.mono (Nat.le_succ n)⟩
    · obtain ⟨s₁, hnext, hat, hreports⟩ := hs.toAhead.next
      obtain ⟨s₂, hsynchronize, hreports', hahead⟩ := hat.synchronize (Nat.lt_of_succ_lt_succ hdepth)
      refine ⟨s₂, ?_, hreports.trans hreports', hahead⟩
      rw [synchronize_goes (not_or_intro hs.goes hend), bind_of_some hnext, hsynchronize]

theorem orSynchronize_of_some {x : Parsing α} {a : α} (h : x s = some (some a, s')) :
    orSynchronize depth x s = some (some a, s') :=
  bind_of_some (attempt_eq h)

theorem orSynchronize_of_none {x : Parsing α} {s'' : Parser} (h : x s = some (none, s'))
    (h' : synchronize depth s' = some (some (), s'')) : orSynchronize depth x s = some (none, s'') :=
  (bind_of_some (attempt_eq h)).trans (bind_of_some h')

theorem Follows.orSkip {x : Parsing α} {p : Attempt α m} (h : Follows Ahead x s n p)
    (hdepth : m + 2 < depth) : Completes Ahead (attempt (orSynchronize depth x)) s n p.orSkip := by
  obtain ⟨outcome, log, taken, short⟩ := p
  obtain ⟨r, s₁, hx, hreports, hends⟩ := h
  cases outcome with
  | done a rest =>
    obtain ⟨rfl, hahead⟩ := hends
    exact ⟨s₁, attempt_eq (orSynchronize_of_some hx), hreports, hahead⟩
  | refused rest =>
    obtain ⟨rfl, hat⟩ := hends
    have hlength : rest.length < depth := by
      have hshort : rest.tail.length ≤ m := short
      rw [List.length_tail] at hshort
      omega
    obtain ⟨s₂, hsynchronize, hreports', hahead⟩ := hat.synchronize hlength
    refine ⟨s₂, attempt_eq (orSynchronize_of_none hx hsynchronize), hreports.silent hreports', ?_⟩
    exact hahead.mono (by simp only [Attempt.orSkip, Attempt.orSkip.skip]; omega)
  | missing rest =>
    obtain ⟨rfl, hbefore⟩ := hends
    have hlength : rest.length + 1 < depth := by
      have hshort : rest.length ≤ m := short
      omega
    obtain ⟨s₂, hsynchronize, hreports', hahead⟩ := hbefore.synchronize hlength
    refine ⟨s₂, attempt_eq (orSynchronize_of_none hx hsynchronize), hreports.silent hreports', ?_⟩
    exact hahead.mono (by simp only [Attempt.orSkip, Attempt.orSkip.skip]; omega)

theorem Follows.orResume {x : Parsing α} {p : Attempt α m} (h : Follows Ahead x s n p) :
    Completes Ahead (attempt x) s n p.orResume := by
  obtain ⟨outcome, log, taken, short⟩ := p
  obtain ⟨r, s₁, hx, hreports, hends⟩ := h
  cases outcome with
  | done a rest =>
    obtain ⟨rfl, hahead⟩ := hends
    exact ⟨s₁, attempt_eq hx, hreports, hahead⟩
  | refused rest =>
    obtain ⟨rfl, hat⟩ := hends
    exact ⟨s₁, attempt_eq hx, hreports, hat.tail⟩
  | missing rest =>
    obtain ⟨rfl, hbefore⟩ := hends
    exact ⟨s₁, attempt_eq hx, hreports, hbefore.toAhead⟩

end Monkey.Parser
