/-
Rules for readers of tokens.

`Parse.Leads x ks next k Q` says of a reader `x` that it takes tokens of the kinds `ks`, if what
comes after them is in `next`, and then goes on as `k` does with a result in `Q`. There is one rule
for each primitive reader and one for the sequence; with them the functions of the parser are
followed from their first token to their last.

Design notes: a reader cannot be followed without the token behind what it reads, since it may look
at that token to know that it is done. It is left open what the token is, so that what is said of a
reader can be used in front of anything that does not continue it.
-/
import Bytescript.Ast.Parse

namespace Bytescript

namespace TokenCursor

variable {cursor : TokenCursor}

/-- The next token, unless it is the end of input. -/
theorem exists_cons (h : cursor.kind ≠ .endOfInput) : ∃ token rest, cursor.rest = token :: rest ∧
    cursor.kind = token.kind ∧ cursor.span = token.span ∧ cursor.advance = ⟨rest, token.span⟩ := by
  rcases cursor with ⟨_ | ⟨token, rest⟩, last⟩
  · exact absurd rfl h
  · refine ⟨token, rest, rfl, rfl, rfl, ?_⟩
    have hend : token.isEnd = false := decide_eq_false h
    simp [advance, hend]

theorem advance_eq_self (h : cursor.kind = .endOfInput) : cursor.advance = cursor := by
  rcases cursor with ⟨_ | ⟨token, rest⟩, last⟩
  · rfl
  · have hend : token.isEnd = true := decide_eq_true h
    simp [advance, hend]

end TokenCursor

theorem discard_bind {m : Type → Type} [Monad m] [LawfulMonad m] {α β : Type} (x : m α)
    (f : PUnit → m β) : (discard x >>= f) = x >>= fun _ => f ⟨⟩ := by
  rw [Functor.discard, LawfulFunctor.map_const]
  simp

namespace Parse

/-- The kind of the first token; the end of input if there is none. -/
def firstKind : List Token → TokenKind
  | [] => .endOfInput
  | token :: _ => token.kind

theorem kind_eq_firstKind (tokens : List Token) (last : Span) :
    (TokenCursor.mk tokens last).kind = firstKind tokens := by
  cases tokens <;> rfl

theorem firstKind_append (tokens more : List Token) :
    firstKind (tokens ++ more) = (tokens.map Token.kind).headD (firstKind more) := by
  cases tokens <;> rfl

section

variable {α β γ : Type}

/-- The reader `x` takes tokens of the kinds `ks`, if what comes after them is in `next`, and then
goes on as `k` does with a result in `Q`. -/
def Leads (x : Parse β) (ks : List TokenKind) (next : TokenKind → Prop) (k : α → Parse β)
    (Q : α → Prop) : Prop :=
  ∀ (tokens more : List Token) (last : Span), tokens.map Token.kind = ks →
    next (firstKind more) →
    ∃ a last', x.run ⟨tokens ++ more, last⟩ = (k a).run ⟨more, last'⟩ ∧ Q a

/-- The reader takes tokens of the kinds `ks`, if what comes after them is in `next`, and gives a
result in `Q`. -/
def Reads (x : Parse α) (ks : List TokenKind) (next : TokenKind → Prop) (Q : α → Prop) : Prop :=
  Leads x ks next pure Q

variable {x : Parse γ} {f : γ → Parse β} {k : α → Parse β} {ks ks' : List TokenKind}
  {next next' : TokenKind → Prop} {kind : TokenKind} {Q : α → Prop} {P : γ → Prop}

theorem Leads.done {a : α} (ha : Q a) : Leads (k a) [] next k Q := by
  intro tokens more last htokens _
  rw [List.map_eq_nil_iff.mp htokens]
  exact ⟨a, last, rfl, ha⟩

theorem reads_pure {a : α} (ha : Q a) : Reads (pure a) [] next Q :=
  Leads.done ha

theorem Leads.mono {x : Parse β} (h : Leads x ks next k Q)
    (hnext : ∀ kind, next' kind → next kind) : Leads x ks next' k Q :=
  fun tokens more last htokens hmore => h tokens more last htokens (hnext _ hmore)

theorem Reads.mono (h : Reads x ks next P) (hnext : ∀ kind, next' kind → next kind) :
    Reads x ks next' P :=
  Leads.mono h hnext

/-- A reader that leads to others. -/
theorem Leads.trans {k' : γ → Parse β} {y : Parse β} (h : Leads y ks next k' P)
    (hnext : ∀ kind, next' kind → next (ks'.headD kind))
    (hk : ∀ c, P c → Leads (k' c) ks' next' k Q) : Leads y (ks ++ ks') next' k Q := by
  intro tokens more last htokens hmore
  obtain ⟨front, back, rfl, hfront, hback⟩ := List.map_eq_append_iff.mp htokens
  have hfirst : next (firstKind (back ++ more)) := by
    rw [firstKind_append, hback]
    exact hnext _ hmore
  obtain ⟨c, last₁, hrun, hc⟩ := h front (back ++ more) last hfront hfirst
  obtain ⟨a, last₂, hrun', ha⟩ := hk c hc back more last₁ hback hmore
  exact ⟨a, last₂, by rw [List.append_assoc, hrun, hrun'], ha⟩

/-- A reader that leads to others that read no token. -/
theorem Leads.trans_last {k' : γ → Parse β} {y : Parse β} (h : Leads y ks next k' P)
    (hnext : ∀ kind, next' kind → next kind)
    (hk : ∀ c, P c → Leads (k' c) [] next' k Q) : Leads y ks next' k Q := by
  rw [← List.append_nil ks]
  exact h.trans hnext hk

theorem Reads.leads (h : Reads x ks next P) : Leads (x >>= f) ks next f P := by
  intro tokens more last htokens hmore
  obtain ⟨c, last', hrun, hc⟩ := h tokens more last htokens hmore
  refine ⟨c, last', ?_, hc⟩
  rw [StateT.run_bind, hrun]
  rfl

/-- One reader after another. -/
theorem Reads.bind (h : Reads x ks next P) (hnext : ∀ kind, next' kind → next (ks'.headD kind))
    (hf : ∀ c, P c → Leads (f c) ks' next' k Q) : Leads (x >>= f) (ks ++ ks') next' k Q :=
  h.leads.trans hnext hf

/-- A reader after which no token is read. -/
theorem Reads.bind_last (h : Reads x ks next P) (hf : ∀ c, P c → Leads (f c) [] next k Q) :
    Leads (x >>= f) ks next k Q := by
  rw [← List.append_nil ks]
  exact h.bind (fun _ hkind => hkind) hf

/-- Looking at the next token. -/
theorem leads_peek {f : TokenKind → Parse β}
    (hf : ∀ kind, next kind → Leads (f (ks.headD kind)) ks (· = kind) k Q) :
    Leads (peek >>= f) ks next k Q := by
  intro tokens more last htokens hmore
  obtain ⟨a, last', hrun, ha⟩ := hf _ hmore tokens more last htokens rfl
  refine ⟨a, last', ?_, ha⟩
  rw [← hrun, ← htokens, ← firstKind_append, ← kind_eq_firstKind _ last]
  rfl

theorem leads_peek_cons {f : TokenKind → Parse β} (hf : Leads (f kind) (kind :: ks) next k Q) :
    Leads (peek >>= f) (kind :: ks) next k Q :=
  leads_peek fun _ hkind => hf.mono fun _ h => h ▸ hkind

theorem leads_skip {f : Span → Parse β} (hkind : kind ≠ .endOfInput)
    (hf : ∀ span, Leads (f span) ks next k Q) : Leads (skip >>= f) (kind :: ks) next k Q := by
  intro tokens more last htokens hmore
  obtain ⟨token, rest, rfl, rfl, hrest⟩ := List.map_eq_cons_iff.mp htokens
  obtain ⟨a, last', hrun, ha⟩ := hf token.span rest more token.span hrest hmore
  refine ⟨a, last', ?_, ha⟩
  have hadvance : (TokenCursor.mk (token :: rest ++ more) last).advance =
      ⟨rest ++ more, token.span⟩ := by
    simp [TokenCursor.advance, Token.isEnd, hkind]
  rw [← hrun, ← hadvance]
  rfl

/-- Looking at the next token and reading it unless it is the end of input. -/
theorem leads_peek_skip {f : TokenKind → Span → Parse β} {stop : TokenKind → Parse β}
    (hkind : kind ≠ .endOfInput) (hf : ∀ span, Leads (f kind span) ks next k Q) :
    Leads (peek >>= fun kind => if kind = .endOfInput then stop kind else skip >>= f kind)
      (kind :: ks) next k Q := by
  refine leads_peek_cons ?_
  rw [if_neg hkind]
  exact leads_skip hkind hf

theorem leads_expect {what : Expectation} {f : Span → Parse β} (hkind : kind ≠ .endOfInput)
    (hf : ∀ span, Leads (f span) ks next k Q) :
    Leads (expect kind what >>= f) (kind :: ks) next k Q := by
  rw [expect, bind_assoc]
  refine leads_peek_cons ?_
  rw [if_pos rfl]
  exact leads_skip hkind hf

theorem leads_accept {f : Bool → Parse β} (hkind : kind ≠ .endOfInput)
    (hf : Leads (f true) ks next k Q) : Leads (accept kind >>= f) (kind :: ks) next k Q := by
  rw [accept, bind_assoc]
  refine leads_peek_cons ?_
  rw [if_pos rfl, bind_assoc, discard_bind]
  refine leads_skip hkind fun span => ?_
  rw [pure_bind]
  exact hf

theorem leads_not_accept {f : Bool → Parse β} (hks : ∀ kind', next kind' → ks.headD kind' ≠ kind)
    (hf : Leads (f false) ks next k Q) : Leads (accept kind >>= f) ks next k Q := by
  rw [accept, bind_assoc]
  refine leads_peek fun kind' hkind' => ?_
  rw [if_neg (hks kind' hkind'), pure_bind]
  exact hf.mono fun _ h => h ▸ hkind'

theorem leads_expectName {what : Expectation} {name : String} {f : Located String → Parse β}
    (hf : ∀ span, Leads (f ⟨name, span⟩) ks next k Q) :
    Leads (expectName what >>= f) (.identifier name :: ks) next k Q := by
  rw [expectName, bind_assoc]
  refine leads_peek_cons ?_
  show Leads ((skip >>= fun span => pure ⟨name, span⟩) >>= f) _ _ _ _
  rw [bind_assoc]
  refine leads_skip (by simp) fun span => ?_
  rw [pure_bind]
  exact hf span

theorem leads_lastSpan {f : Span → Parse β} (hf : ∀ span, Leads (f span) ks next k Q) :
    Leads (lastSpan >>= f) ks next k Q :=
  fun tokens more last htokens hmore => hf last tokens more last htokens hmore

theorem leads_atAssignment {name : String} {y z : Parse β}
    (hy : Leads y (.identifier name :: .mark .equal :: ks) next k Q) :
    Leads (atAssignment >>= fun found => if found then y else z)
      (.identifier name :: .mark .equal :: ks) next k Q := by
  intro tokens more last htokens hmore
  obtain ⟨⟨_, _, _⟩, tokens, rfl, rfl, hrest⟩ := List.map_eq_cons_iff.mp htokens
  obtain ⟨⟨_, _, _⟩, tokens, rfl, rfl, -⟩ := List.map_eq_cons_iff.mp hrest
  exact hy _ more last htokens hmore

theorem atAssignment_eq_false {cursor : TokenCursor}
    (h : firstKind cursor.rest.tail ≠ .mark .equal) : cursor.atAssignment = false := by
  unfold TokenCursor.atAssignment
  split
  · next hrest =>
    rw [hrest] at h
    exact absurd rfl h
  · rfl

theorem leads_not_atAssignment {y z : Parse β}
    (hnext : ∀ kind', next kind' → ks.headD kind' ≠ .mark .equal)
    (hz : Leads z (kind :: ks) next k Q) :
    Leads (atAssignment >>= fun found => if found then y else z)
      (kind :: ks) next k Q := by
  intro tokens more last htokens hmore
  obtain ⟨a, last', hrun, ha⟩ := hz tokens more last htokens hmore
  refine ⟨a, last', ?_, ha⟩
  obtain ⟨token, rest, rfl, -, hrest⟩ := List.map_eq_cons_iff.mp htokens
  have hne : firstKind (rest ++ more) ≠ .mark .equal := by
    rw [firstKind_append, hrest]
    exact hnext _ hmore
  have hfalse : (TokenCursor.mk (token :: rest ++ more) last).atAssignment = false :=
    atAssignment_eq_false hne
  show (if (TokenCursor.mk (token :: rest ++ more) last).atAssignment then y else z).run _ = _
  rw [hfalse, ← hrun]
  rfl

end

end Parse

end Bytescript
