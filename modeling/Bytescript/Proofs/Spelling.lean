/-
Printed trees are scanned into their tokens.

`ScansAs` says into which kinds of tokens a text is scanned, wherever it begins. The text is built
from its end: one rule for each kind of token puts its characters in front. Names and numbers go on
as long as they can, so what follows them has to begin with a delimiter (`Delimited`); in printed
trees it does. Main statement: `StmtsSpelled.scan_render`.
-/
import Bytescript.Proofs.Grammar
import Bytescript.Proofs.Scanning
import Mathlib.Data.List.Forall2

namespace Bytescript

/-! ### Texts and their tokens -/

/-- The text is scanned into tokens of these kinds. -/
def ScansAs (chars : List Char) (kinds : List TokenKind) : Prop :=
  ∀ p, ∃ tokens, Scans chars p tokens ∧ tokens.map Token.kind = kinds

/-- Ends what could go on: a name, a number or an operator. -/
def delimiters : List Char :=
  [' ', '\t', '\r', '\n', '(', ')', ',', ';', '[', ']', ':', '\x7d']

/-- The text is empty or begins with a delimiter. -/
def Delimited (chars : List Char) : Prop :=
  ∀ c ∈ chars.head?, c ∈ delimiters

section

variable {c : Char} {chars letters : List Char} {kinds : List TokenKind} {kind : TokenKind}

theorem scansAs_nil : ScansAs [] [.endOfInput] :=
  fun _ => ⟨_, .stop, rfl⟩

theorem ScansAs.blank (h : ScansAs chars kinds) : ScansAs (' ' :: chars) kinds := by
  intro p
  obtain ⟨tokens, hscans, hkinds⟩ := h p.next
  exact ⟨tokens, .skip rfl rfl hscans, hkinds⟩

/-- A step that reads a token, and the text after it. -/
theorem ScansAs.token {rest : List Char}
    (hstep : ∀ p, ∃ stop, scanStep p c rest = .ok ⟨some kind, chars, stop⟩)
    (h : ScansAs chars kinds) : ScansAs (c :: rest) (kind :: kinds) := by
  intro p
  obtain ⟨stop, hstep⟩ := hstep p
  obtain ⟨tokens, hscans, hkinds⟩ := h stop
  refine ⟨_, .token hstep rfl hscans, ?_⟩
  rw [List.map_cons, hkinds]

/-! ### Marks -/

theorem scanStep_mark {p : Position} {m : Mark} (hc : Mark.ofChar? c = some m) :
    scanStep p c chars = .ok ⟨some (.mark m), chars, p.next⟩ := by
  rw [scanStep.eq_def]
  split
  case h_11 => rw [hc]
  all_goals cases hc

theorem ScansAs.mark {m : Mark} (hc : Mark.ofChar? c = some m) (h : ScansAs chars kinds) :
    ScansAs (c :: chars) (.mark m :: kinds) :=
  .token (fun _ => ⟨_, scanStep_mark hc⟩) h

theorem scanComparison_alone {p : Position} {alone withEqual : Mark}
    (h : chars.head? ≠ some '=') :
    scanComparison p alone withEqual chars = ⟨some (.mark alone), chars, p.next⟩ := by
  rw [scanComparison.eq_def]
  split
  · simp at h
  · rfl

theorem scanStep_slash {p : Position} (h : chars.head? ≠ some '/') :
    scanStep p '/' chars = .ok ⟨some (.mark .slash), chars, p.next⟩ := by
  rw [scanStep]
  intro more hmore
  exact h (by rw [hmore]; rfl)

/-- Operators are told apart by the character after them. -/
theorem ScansAs.operator (m : Mark) (hequal : chars.head? ≠ some '=')
    (hslash : m = .slash → chars.head? ≠ some '/') (h : ScansAs chars kinds) :
    ScansAs (m.text.toList ++ chars) (.mark m :: kinds) := by
  cases m with
  | plus | minus | star | percent | leftParen | rightParen | leftBrace | rightBrace | leftBracket
  | rightBracket | comma | colon | semicolon => exact h.mark rfl
  | equalEqual | bangEqual | lessEqual | greaterEqual => exact .token (fun _ => ⟨_, rfl⟩) h
  | equal | bang | less | greater =>
    exact .token (fun _ => ⟨_, congrArg Except.ok (scanComparison_alone hequal)⟩) h
  | slash => exact .token (fun _ => ⟨_, scanStep_slash (hslash rfl)⟩) h

/-- The text of a printed expression does not begin with an equal sign. -/
theorem ScansAs.head_ne_equal (h : ScansAs chars (kind :: kinds)) (hkind : kind.opensExpr = true) :
    chars.head? ≠ some '=' := by
  intro hhead
  obtain ⟨rest, rfl⟩ := List.head?_eq_some_iff.mp hhead
  obtain ⟨tokens, hscans, hkinds⟩ := h {}
  have hmark := kind_scanComparison {} .equal .equalEqual rest
  cases hscans with
  | skip hstep hnone _ =>
    cases hstep
    rw [hnone] at hmark
    simp at hmark
  | token hstep hsome _ =>
    cases hstep
    rw [hsome] at hmark
    cases hkinds
    rcases hmark with hmark | hmark <;> cases hmark <;> cases hkind

/-! ### Names and numbers -/

/-- No name goes on behind a delimiter, and no number. -/
theorem delimiters_end : ∀ c ∈ delimiters,
    isNameChar c = false ∧ c.isDigit = false ∧ c ≠ '.' ∧ c ≠ '=' := by
  have hall : delimiters.all (fun c => decide
      (isNameChar c = false ∧ c.isDigit = false ∧ c ≠ '.' ∧ c ≠ '=')) = true := by
    decide +kernel
  exact fun c hc => of_decide_eq_true (List.all_eq_true.mp hall c hc)

theorem takeWhile_append_of_head {p : Char → Bool} (hletters : ∀ c ∈ letters, p c = true)
    (hchars : ∀ c ∈ chars.head?, p c = false) :
    (letters ++ chars).takeWhile p = letters ∧ (letters ++ chars).dropWhile p = chars := by
  rw [List.takeWhile_append_of_pos hletters, List.dropWhile_append_of_pos hletters]
  cases chars with
  | nil => simp
  | cons c rest =>
    have hc := hchars c rfl
    simp [hc]

/-- The digits stand before the letters. -/
theorem isNameStart_of_isDigit (h : c.isDigit = true) : isNameStart c = false := by
  have hle : c.toNat ≤ 57 := (Char.isDigit_iff_toNat.mp h).2
  have hupper : ¬ 'A'.val ≤ c.val := by
    show ¬65 ≤ c.toNat
    omega
  have hlower : ¬ 'a'.val ≤ c.val := by
    show ¬97 ≤ c.toNat
    omega
  have halpha : c.isAlpha = false := by
    show (decide ('A'.val ≤ c.val ∧ c.val ≤ 'Z'.val) ||
      (decide ('a'.val ≤ c.val) && decide (c.val ≤ 'z'.val))) = false
    rw [decide_eq_false fun h => hupper h.1, decide_eq_false hlower]
    rfl
  have hunderscore : c ≠ '_' := by
    rintro rfl
    exact absurd hle (by decide)
  rw [isNameStart, Text.isAlphabetic, if_pos (by omega), halpha]
  simpa using hunderscore

/-- What begins a name begins nothing else. -/
theorem scanStep_word {p : Position} (hc : isNameStart c = true) :
    scanStep p c chars = .ok (scanWord p c chars) := by
  have hmark : Mark.ofChar? c = none := by
    rw [Mark.ofChar?.eq_def]
    split
    case h_14 => rfl
    all_goals exact absurd hc (by decide +kernel)
  have hdigit : c.isDigit = false := by
    cases hdigit : c.isDigit with
    | false => rfl
    | true => rw [isNameStart_of_isDigit hdigit] at hc; cases hc
  rw [scanStep.eq_def]
  split
  case h_11 => simp [hmark, hdigit, hc]
  all_goals exact absurd hc (by decide +kernel)

theorem ScansAs.word (hletters : isWord letters = true) (hchars : Delimited chars)
    (h : ScansAs chars kinds) :
    ScansAs (letters ++ chars) (.ofWord (String.ofList letters) :: kinds) := by
  cases letters with
  | nil => cases hletters
  | cons first rest =>
    obtain ⟨hfirst, hrest⟩ := Bool.and_eq_true_iff.mp hletters
    obtain ⟨htake, hdrop⟩ := takeWhile_append_of_head (List.all_eq_true.mp hrest)
      fun c hc => (delimiters_end c (hchars c hc)).1
    rw [List.cons_append]
    refine .token (fun p => ⟨p.skip (first :: rest).length, ?_⟩) h
    rw [scanStep_word hfirst, scanWord, htake, hdrop]

theorem ScansAs.name {name : String} (hname : IsName name) (hchars : Delimited chars)
    (h : ScansAs chars kinds) : ScansAs (name.toList ++ chars) (.identifier name :: kinds) := by
  have hword := h.word hname.isWord hchars
  rwa [String.ofList_toList, TokenKind.ofWord, hname.free] at hword

theorem isWord_keyword (word : Keyword) : isWord word.text.toList = true := by
  cases word <;> decide +kernel

theorem ScansAs.keyword (word : Keyword) (hchars : Delimited chars) (h : ScansAs chars kinds) :
    ScansAs (word.text.toList ++ chars) (.keyword word :: kinds) := by
  have hword := h.word (isWord_keyword word) hchars
  rw [String.ofList_toList] at hword
  cases word <;> exact hword

/-- What begins a number begins nothing else. -/
theorem scanStep_number {p : Position} (hc : c.isDigit = true) :
    scanStep p c chars = scanNumber p c chars := by
  have hmark : Mark.ofChar? c = none := by
    rw [Mark.ofChar?.eq_def]
    split
    case h_14 => rfl
    all_goals exact absurd hc (by decide)
  rw [scanStep.eq_def]
  split
  case h_11 => simp [hmark, hc]
  all_goals exact absurd hc (by decide)

/-- The digits of an integer are read as that integer. -/
theorem ScansAs.integer {value : Int64} (hvalue : 0 ≤ value.toInt) (hchars : Delimited chars)
    (h : ScansAs chars kinds) :
    ScansAs ((toString value.toInt).toList ++ chars) (.integer value :: kinds) := by
  obtain ⟨n, hn⟩ := Int.eq_ofNat_of_zero_le hvalue
  have hvalue_eq : Int64.ofNat n = value := by
    rw [← Int64.ofInt_eq_ofNat, ← hn, Int64.ofInt_toInt]
  have hn_le : n ≤ maxInteger := by
    have hlt := value.toInt_lt
    rw [maxInteger]
    omega
  have htext : (toString value.toInt).toList = Nat.toDigits 10 n := by
    rw [hn]
    exact Nat.toList_repr
  have hdigits : ∀ c ∈ Nat.toDigits 10 n, c.isDigit = true :=
    fun c hc => Nat.isDigit_of_mem_toDigits (by decide) (by decide) hc
  have hvalue_digits : digitsValue (Nat.toDigits 10 n) = n :=
    Nat.ofDigitChars_toDigits (by decide) (by decide)
  rw [htext]
  cases hlist : Nat.toDigits 10 n with
  | nil => exact absurd hlist Nat.toDigits_ne_nil
  | cons first rest =>
    rw [hlist] at hdigits hvalue_digits
    obtain ⟨htake, hdrop⟩ := takeWhile_append_of_head
      (fun c hc => hdigits c (List.mem_cons_of_mem first hc))
      fun c hc => (delimiters_end c (hchars c hc)).2.1
    rw [List.cons_append]
    refine .token (fun p => ⟨p.skip (first :: rest).length, ?_⟩) h
    rw [scanStep_number (hdigits first List.mem_cons_self), scanNumber]
    dsimp only
    rw [htake, hdrop, hvalue_digits, if_pos hn_le, hvalue_eq]
    split
    · next d more =>
      -- a point is no delimiter
      exact absurd rfl (delimiters_end '.' (hchars '.' rfl)).2.2.1
    · rfl

/-! ### Strings -/

/-- The text stands for the character between quotes: it is the character, or an escape of it. -/
def Quotes (c : Char) (text : List Char) : Prop :=
  (text = [c] ∧ c ≠ '"' ∧ c ≠ '\\') ∨ ∃ e, text = ['\\', e] ∧ unescape? e = some c

theorem quotes_escapeChar (hc : isPlain c = true) : Quotes c (Text.escapeChar c) := by
  rw [isPlain, Bool.or_eq_true, decide_eq_true_iff, decide_eq_true_iff] at hc
  rcases hc with hraw | hmem
  · have hquote : c ≠ '"' := by
      rintro rfl
      exact absurd hraw (by decide)
    have hbackslash : c ≠ '\\' := by
      rintro rfl
      exact absurd hraw (by decide)
    exact .inl ⟨hraw, hquote, hbackslash⟩
  · simp only [List.mem_cons, List.not_mem_nil, or_false] at hmem
    rcases hmem with rfl | rfl | rfl | rfl | rfl <;> exact .inr ⟨_, rfl, rfl⟩

/-- The text of a character between quotes is read as that character. -/
theorem scanString_quotes (start p : Position) (chars content : List Char) {text : List Char}
    (htext : Quotes c text) :
    ∃ p', scanString start (text ++ chars) p content =
      scanString start chars p' (c :: content) := by
  rcases htext with ⟨rfl, hquote, hbackslash⟩ | ⟨e, rfl, hescape⟩
  · rw [List.singleton_append, scanString]
    · exact ⟨_, rfl⟩
    · exact fun h _ => hbackslash h
    · exact hquote
    · exact fun _ _ h _ => hbackslash h
  · refine ⟨p.next.next, ?_⟩
    rw [List.cons_append, List.cons_append, List.nil_append, scanString, hescape]

theorem scanString_flatMap {escape : Char → List Char} {value : List Char}
    (hvalue : ∀ c ∈ value, Quotes c (escape c)) (start p : Position) (chars content : List Char) :
    ∃ stop, scanString start (value.flatMap escape ++ '"' :: chars) p content =
      .ok ⟨some (.string (String.ofList (content.reverse ++ value))), chars, stop⟩ := by
  induction value generalizing p content with
  | nil => exact ⟨p.next, by rw [List.append_nil]; rfl⟩
  | cons c value ih =>
    obtain ⟨p', hp'⟩ := scanString_quotes start p (value.flatMap escape ++ '"' :: chars) content
      (hvalue c List.mem_cons_self)
    obtain ⟨stop, hstop⟩ := ih (fun d hd => hvalue d (List.mem_cons_of_mem c hd)) p' (c :: content)
    refine ⟨stop, ?_⟩
    rw [List.flatMap_cons, List.append_assoc, hp', hstop, List.reverse_cons, List.append_assoc]
    rfl

/-- A string in quotes, with any escapes that the scanner knows. -/
theorem ScansAs.quoted {escape : Char → List Char} {value : String}
    (hvalue : ∀ c ∈ value.toList, Quotes c (escape c)) (h : ScansAs chars kinds) :
    ScansAs ('"' :: (value.toList.flatMap escape ++ '"' :: chars)) (.string value :: kinds) := by
  refine .token (fun p => ?_) h
  obtain ⟨stop, hstop⟩ := scanString_flatMap hvalue p p.next chars []
  refine ⟨stop, ?_⟩
  have hstep : scanStep p '"' (value.toList.flatMap escape ++ '"' :: chars) =
      scanString p (value.toList.flatMap escape ++ '"' :: chars) p.next [] := rfl
  rw [hstep, hstop, List.reverse_nil, List.nil_append, String.ofList_toList]

theorem ScansAs.string {value : String} (hvalue : ∀ c ∈ value.toList, isPlain c = true)
    (h : ScansAs chars kinds) :
    ScansAs ((Text.quote value).toList ++ chars) (.string value :: kinds) := by
  have htext : (Text.quote value).toList ++ chars =
      '"' :: (value.toList.flatMap Text.escapeChar ++ '"' :: chars) := by
    simp [Text.quote]
  rw [htext]
  exact h.quoted fun c hc => quotes_escapeChar (hvalue c hc)

end

/-! ### Trees -/

/-- The text is scanned into these tokens, whatever follows behind a delimiter. -/
def Writes (text : List Char) (ks : List TokenKind) : Prop :=
  ∀ {chars : List Char} {kinds : List TokenKind}, Delimited chars → ScansAs chars kinds →
    ScansAs (text ++ chars) (ks ++ kinds)

theorem delimited_cons {c : Char} {chars : List Char} (hc : c ∈ delimiters) :
    Delimited (c :: chars) := by
  rintro d ⟨⟩
  exact hc

section

variable {ks ls rs : List TokenKind}

theorem writes_unary {op : UnaryOp} {operand : Expr} {span : Span}
    (hopens : ∃ kind rest, ks = kind :: rest ∧ kind.opensExpr = true)
    (hoperand : Writes operand.render.toList ks) :
    Writes (Expr.unary op operand span).render.toList
      (.mark .leftParen :: .mark op.mark :: (ks ++ [.mark .rightParen])) := by
  intro chars kinds _ h
  obtain ⟨kind, rest, rfl, hkind⟩ := hopens
  have hclose := h.mark (c := ')') rfl
  have hoperand := hoperand (delimited_cons (by decide)) hclose
  have hop := hoperand.operator op.mark (hoperand.head_ne_equal hkind) fun hslash => by
    cases op <;> cases hslash
  have hopen := hop.mark (c := '(') rfl
  rw [UnaryOp.text_mark] at hopen
  simpa [Expr.render] using hopen

theorem writes_binary {op : BinaryOp} {left right : Expr} {span : Span}
    (hleft : Writes left.render.toList ls) (hright : Writes right.render.toList rs) :
    Writes (Expr.binary op left right span).render.toList
      (.mark .leftParen :: (ls ++ .mark op.mark :: (rs ++ [.mark .rightParen]))) := by
  intro chars kinds _ h
  have hclose := h.mark (c := ')') rfl
  have hright := hright (delimited_cons (by decide)) hclose
  have hop := hright.blank.operator op.mark (by simp) (by simp)
  have hleft := hleft (delimited_cons (by decide)) hop.blank
  have hopen := hleft.mark (c := '(') rfl
  rw [BinaryOp.text_mark] at hopen
  simpa [Expr.render] using hopen

theorem writes_index {object index : Expr} {span : Span}
    (hobject : Writes object.render.toList ls) (hindex : Writes index.render.toList rs) :
    Writes (Expr.index object index span).render.toList (.mark .leftParen ::
      (ls ++ .mark .leftBracket :: (rs ++ [.mark .rightBracket, .mark .rightParen]))) := by
  intro chars kinds _ h
  have hclose := (h.mark (c := ')') rfl).mark (c := ']') rfl
  have hindex := hindex (delimited_cons (by decide)) hclose
  have hbracket := hindex.mark (c := '[') rfl
  have hobject := hobject (delimited_cons (by decide)) hbracket
  have hopen := hobject.mark (c := '(') rfl
  simpa [Expr.render] using hopen

/-- Items with commas between them. -/
theorem writes_separated {texts : List (List Char)} {items : List (List TokenKind)}
    (h : List.Forall₂ Writes texts items) :
    Writes ([',', ' '].intercalate texts) (separated items) := by
  induction h with
  | nil => exact fun _ h => h
  | @cons text ks texts items htext hrest ih =>
    intro chars kinds hchars h
    cases hrest with
    | nil => simpa [separated] using htext hchars h
    | cons hnext hrest =>
      have hitems := ih hchars h
      have hcomma := hitems.blank.mark (c := ',') rfl
      have htext := htext (delimited_cons (by decide)) hcomma
      simpa [separated] using htext

theorem writes_call {callee : Expr} {args : List Expr} {span : Span}
    {items : List (List TokenKind)} (hcallee : Writes callee.render.toList ks)
    (hargs : List.Forall₂ Writes ((renderAll args).map String.toList) items) :
    Writes (Expr.call callee args span).render.toList
      (ks ++ .mark .leftParen :: (separated items ++ [.mark .rightParen])) := by
  intro chars kinds _ h
  have hclose := h.mark (c := ')') rfl
  have hitems := writes_separated hargs (delimited_cons (by decide)) hclose
  have hopen := hitems.mark (c := '(') rfl
  have hcallee := hcallee (delimited_cons (by decide)) hopen
  simpa [Expr.render] using hcallee

theorem writes_array {elements : List Expr} {span : Span} {items : List (List TokenKind)}
    (helements : List.Forall₂ Writes ((renderAll elements).map String.toList) items) :
    Writes (Expr.array elements span).render.toList
      (.mark .leftBracket :: (separated items ++ [.mark .rightBracket])) := by
  intro chars kinds _ h
  have hclose := h.mark (c := ']') rfl
  have hitems := writes_separated helements (delimited_cons (by decide)) hclose
  have hopen := hitems.mark (c := '[') rfl
  simpa [Expr.render] using hopen

theorem writes_hash {entries : List (Expr × Expr)} {span : Span} {items : List (List TokenKind)}
    (hentries : List.Forall₂ Writes ((renderEntries entries).map String.toList) items) :
    Writes (Expr.hash entries span).render.toList
      (.mark .leftBrace :: (separated items ++ [.mark .rightBrace])) := by
  intro chars kinds _ h
  have hclose := h.mark (c := '\x7d') rfl
  have hitems := writes_separated hentries (delimited_cons (by decide)) hclose
  have hopen := hitems.mark (c := '\x7b') rfl
  simpa [Expr.render] using hopen

theorem writes_entry {key value : Expr} (hkey : Writes key.render.toList ls)
    (hvalue : Writes value.render.toList rs) :
    Writes (key.render ++ ": " ++ value.render).toList (ls ++ .mark .colon :: rs) := by
  intro chars kinds hchars h
  have hvalue := hvalue hchars h
  have hcolon := hvalue.blank.mark (c := ':') rfl
  have hkey := hkey (delimited_cons (by decide)) hcolon
  simpa using hkey

theorem delimited_else {elseBranch : Option Block} {chars : List Char} (hchars : Delimited chars) :
    Delimited ((renderElse elseBranch).toList ++ chars) := by
  cases elseBranch with
  | none => exact hchars
  | some block =>
    rw [renderElse, String.toList_append]
    exact delimited_cons (by decide)

theorem writes_conditional {condition : Expr} {thenBranch : Block} {elseBranch : Option Block}
    {span : Span} (hcondition : Writes condition.render.toList ks)
    (hthen : Writes thenBranch.render.toList ls)
    (helse : Writes (renderElse elseBranch).toList rs) :
    Writes (Expr.conditional condition thenBranch elseBranch span).render.toList
      (.keyword .ifWord :: .mark .leftParen :: (ks ++ .mark .rightParen :: (ls ++ rs))) := by
  intro chars kinds hchars h
  have helse := helse hchars h
  have hthen := hthen (delimited_else hchars) helse
  have hclose := hthen.blank.mark (c := ')') rfl
  have hcondition := hcondition (delimited_cons (by decide)) hclose
  have hopen := (hcondition.mark (c := '(') rfl).blank
  have hif := hopen.keyword .ifWord (delimited_cons (by decide))
  simpa [Expr.render, Keyword.text] using hif

theorem writes_params {params : List Param} (hparams : ∀ param ∈ params, IsName param.name) :
    Writes (", ".intercalate (params.map Param.name)).toList (paramKinds params) := by
  have hitems : List.Forall₂ Writes ((params.map Param.name).map String.toList)
      (params.map fun param => [.identifier param.name]) := by
    induction params with
    | nil => exact .nil
    | cons param rest ih =>
      refine .cons ?_ (ih fun p hp => hparams p (List.mem_cons_of_mem param hp))
      intro chars kinds hchars h
      exact h.name (hparams param List.mem_cons_self) hchars
  intro chars kinds hchars h
  rw [String.toList_intercalate]
  exact writes_separated hitems hchars h

theorem writes_function {params : List Param} {body : Block} {span : Span}
    (hparams : ∀ param ∈ params, IsName param.name) (hbody : Writes body.render.toList ks) :
    Writes (Expr.function none params body span).render.toList
      (.keyword .fnWord :: .mark .leftParen :: (paramKinds params ++ .mark .rightParen :: ks)) := by
  intro chars kinds hchars h
  have hbody := hbody hchars h
  have hclose := hbody.blank.mark (c := ')') rfl
  have hnames := writes_params hparams (delimited_cons (by decide)) hclose
  have hopen := hnames.mark (c := '(') rfl
  have hfn := hopen.keyword .fnWord (delimited_cons (by decide))
  simpa [Expr.render, Keyword.text] using hfn

theorem writes_else {block : Block} (hblock : Writes block.render.toList ks) :
    Writes (renderElse (some block)).toList (.keyword .elseWord :: ks) := by
  intro chars kinds hchars h
  have hblock := hblock hchars h
  have helse := hblock.blank.keyword .elseWord (delimited_cons (by decide))
  simpa [renderElse, Keyword.text] using helse.blank

theorem writes_assign {name : String} {value : Expr} {span : Span} (hname : IsName name)
    (hvalue : Writes value.render.toList ks) :
    Writes (Stmt.assign name value span).render.toList
      (.identifier name :: .mark .equal :: (ks ++ [.mark .semicolon])) := by
  intro chars kinds _ h
  have hclose := h.mark (c := ';') rfl
  have hvalue := hvalue (delimited_cons (by decide)) hclose
  have hequal := hvalue.blank.operator .equal (by simp) (by simp)
  have hname := hequal.blank.name hname (delimited_cons (by decide))
  simpa [Stmt.render, Mark.text] using hname

theorem writes_declare {mutability : Mutability} {name : String} {value : Expr} {span : Span}
    (hname : IsName name) (hvalue : Writes value.render.toList ks) :
    Writes (Stmt.declare mutability name value span).render.toList
      (.keyword mutability.keyword :: .identifier name :: .mark .equal ::
        (ks ++ [.mark .semicolon])) := by
  intro chars kinds hchars h
  -- behind its keyword a declaration is written like an assignment
  have hassign : Writes (Stmt.assign name value span).render.toList _ := writes_assign hname hvalue
  have hkeyword := (hassign hchars h).blank.keyword mutability.keyword (delimited_cons (by decide))
  rw [Mutability.text_keyword] at hkeyword
  simpa [Stmt.render, Mark.text] using hkeyword

theorem writes_ret {value : Expr} {span : Span} (hvalue : Writes value.render.toList ks) :
    Writes (Stmt.ret (some value) span).render.toList
      (.keyword .returnWord :: (ks ++ [.mark .semicolon])) := by
  intro chars kinds _ h
  have hclose := h.mark (c := ';') rfl
  have hvalue := hvalue (delimited_cons (by decide)) hclose
  have hkeyword := hvalue.blank.keyword .returnWord (delimited_cons (by decide))
  simpa [Stmt.render, Keyword.text] using hkeyword

theorem writes_retNone {span : Span} :
    Writes (Stmt.ret none span).render.toList [.keyword .returnWord, .mark .semicolon] := by
  intro chars kinds _ h
  have hclose := h.mark (c := ';') rfl
  have hkeyword := hclose.keyword .returnWord (delimited_cons (by decide))
  simpa [Stmt.render, Keyword.text] using hkeyword

/-- The text of statements one after another. -/
def statementsText (statements : List Stmt) : List Char :=
  [' '].intercalate ((renderStatements statements).map String.toList)

theorem writes_statements_expression {e : Expr} {span : Span} (he : Writes e.render.toList ks) :
    Writes (statementsText [.expression e span]) ks := by
  intro chars kinds hchars h
  simpa [statementsText, renderStatements, Stmt.render] using he hchars h

theorem writes_statements_cons {s : Stmt} {rest : List Stmt} (hs : Writes s.render.toList ls)
    (hrest : Writes (statementsText rest) rs) (hnil : rest = [] → rs = []) :
    Writes (statementsText (s :: rest)) (ls ++ rs) := by
  intro chars kinds hchars h
  cases rest with
  | nil =>
    rw [hnil rfl]
    simpa [statementsText, renderStatements] using hs hchars h
  | cons next rest =>
    have hrest := hrest hchars h
    have hs := hs (delimited_cons (by decide)) hrest.blank
    simpa [statementsText, renderStatements] using hs

theorem writes_block {statements : List Stmt} {span : Span}
    (hstatements : Writes (statementsText statements) ks) (hnil : statements = [] → ks = []) :
    Writes (Block.mk statements span).render.toList
      (.mark .leftBrace :: (ks ++ [.mark .rightBrace])) := by
  intro chars kinds _ h
  have hclose := (h.mark (c := '\x7d') rfl).blank
  cases statements with
  | nil =>
    rw [hnil rfl]
    have hopen := hclose.mark (c := '\x7b') rfl
    simpa [Block.render] using hopen
  | cons s rest =>
    have hstatements := hstatements (delimited_cons (by decide)) hclose
    have hopen := hstatements.blank.mark (c := '\x7b') rfl
    simpa [Block.render, statementsText, renderStatements] using hopen

end

mutual

theorem Expr.Spelled.writes : ∀ {e : Expr} {ks : List TokenKind}, e.Spelled ks →
    Writes e.render.toList ks
  | _, _, .identifier hname => fun hchars h => h.name hname hchars
  | _, _, .integer hvalue => fun hchars h => h.integer hvalue hchars
  | _, _, .string hvalue => fun _ h => h.string hvalue
  | _, _, @Expr.Spelled.boolean value _ => fun hchars h => by
    cases value with
    | true => exact h.keyword .trueWord hchars
    | false => exact h.keyword .falseWord hchars
  | _, _, .null => fun hchars h => h.keyword .nullWord hchars
  | _, _, .unary hoperand => by
    obtain ⟨kind, rest, hks, hkind, -⟩ := hoperand.opens
    exact writes_unary ⟨kind, rest, hks, hkind⟩ hoperand.writes
  | _, _, .binary hleft hright => writes_binary hleft.writes hright.writes
  | _, _, .conditional hcondition hthen helse =>
    writes_conditional hcondition.writes hthen.writes helse.writes
  | _, _, .function hparams hbody => writes_function hparams hbody.writes
  | _, _, .call hcallee hargs => writes_call hcallee.writes hargs.writes
  | _, _, .array helements => writes_array helements.writes
  | _, _, .hash hentries => writes_hash hentries.writes
  | _, _, .index hobject hindex => writes_index hobject.writes hindex.writes

theorem ExprsSpelled.writes : ∀ {es : List Expr} {items : List (List TokenKind)},
    ExprsSpelled es items → List.Forall₂ Writes ((renderAll es).map String.toList) items
  | _, _, .nil => .nil
  | _, _, .cons he hrest => .cons he.writes hrest.writes

theorem EntriesSpelled.writes : ∀ {es : List (Expr × Expr)} {items : List (List TokenKind)},
    EntriesSpelled es items → List.Forall₂ Writes ((renderEntries es).map String.toList) items
  | _, _, .nil => .nil
  | _, _, .cons hkey hvalue hrest => .cons (writes_entry hkey.writes hvalue.writes) hrest.writes

theorem ElseSpelled.writes : ∀ {elseBranch : Option Block} {ks : List TokenKind},
    ElseSpelled elseBranch ks → Writes (renderElse elseBranch).toList ks
  | _, _, .none => fun _ h => h
  | _, _, .some hblock => writes_else hblock.writes

theorem Stmt.Spelled.writes : ∀ {s : Stmt} {ks : List TokenKind}, s.Spelled ks →
    Writes s.render.toList ks
  | _, _, .declare hname _ hvalue => writes_declare hname hvalue.writes
  | _, _, .assign hname hvalue => writes_assign hname hvalue.writes
  | _, _, .retNone => writes_retNone
  | _, _, .ret hvalue => writes_ret hvalue.writes

theorem StmtsSpelled.writes : ∀ {statements : List Stmt} {ks : List TokenKind},
    StmtsSpelled statements ks → Writes (statementsText statements) ks
  | _, _, .nil => fun _ h => h
  | _, _, .expression he => writes_statements_expression he.writes
  | _, _, .cons hs hrest => writes_statements_cons hs.writes hrest.writes hrest.eq_nil

theorem Block.Spelled.writes : ∀ {b : Block} {ks : List TokenKind}, b.Spelled ks →
    Writes b.render.toList ks
  | _, _, .mk hstatements => writes_block hstatements.writes hstatements.eq_nil

end

/-- A program is scanned into its tokens and the end of input. -/
theorem StmtsSpelled.scan_render {statements : List Stmt} {ks : List TokenKind}
    (h : StmtsSpelled statements ks) :
    ∃ tokens, scan (Ast.render ⟨statements⟩) = .ok tokens ∧
      tokens.map Token.kind = ks ++ [.endOfInput] := by
  have hdelimited : Delimited [] := by
    intro c hc
    cases hc
  obtain ⟨tokens, hscans, hkinds⟩ := h.writes hdelimited scansAs_nil {}
  refine ⟨tokens, scan_ok_iff.mpr ?_, hkinds⟩
  rwa [Ast.render, String.toList_intercalate, ← List.append_nil (List.intercalate _ _)]

end Bytescript
